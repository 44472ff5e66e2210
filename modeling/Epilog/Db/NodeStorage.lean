/- Module: Epilog/Db/NodeStorage
   source: src/src/db/triedb.cpp (append_leaf_node, append_branch_node, read_leaf_node,
     read_branch_node, get_bucket_stream, set_file_offset, scan_last_bucket, scan_last_offset)
   digest: Nodes appended to bucket files, read back, and the offset found when the files are
     opened again. -/

import Epilog.Db.NodeCodec
import Epilog.Lib.Fuel
import Mathlib

set_option autoImplicit false

namespace Epilog.Db.NodeStorage

open Epilog.Common.Bits Epilog.Db.Branch Epilog.Db.Store Epilog.Db.NodeCodec Epilog.Lib.Fuel

section Source

def VERSION : Bytes := ("triedb_1.0     ".toList.map fun ch => UInt8.ofNat ch.toNat) ++ [0]

/-- `assertion` stands for a failed `assert` or a read that fails. -/
inductive StorageError
  | version
  | assertion
  | checkedCast
  deriving DecidableEq

/-- The bucket files, the directories of 64 buckets each, and `last_offset_`. The streams in the
cache show what is in their files. -/
structure Storage where
  dirs : ℕ → Bool
  files : ℕ → Option Bytes
  lastOffset : ℕ

/-- A database in a new directory -/
def Storage.new : Storage := ⟨fun _ => false, fun _ => none, 0⟩

abbrev Files := EStateM StorageError Storage

variable (P : TriedbParams)

/-- `get_bucket_stream`: a new file gets the version, and every file is checked for it. -/
def getBucketStream (bucketIndex : ℕ) : Files Bytes := fun s =>
  let file := (s.files bucketIndex).getD VERSION
  let s := if (s.files bucketIndex).isNone then
      { s with dirs := Function.update s.dirs (bucketIndex / 64) true
               files := Function.update s.files bucketIndex (some VERSION) }
    else s
  if file.take VERSION_SZ = VERSION then .ok file s else .error .version s

/-- `set_file_offset`: the bucket, what is in its file, and the position there -/
def setFileOffset (offset : ℕ) : Files (ℕ × Bytes × ℕ) := do
  let bucketIndex := offset / P.bucketSize
  let file ← getBucketStream bucketIndex
  return (bucketIndex, file, offset - bucketIndex * P.bucketSize + VERSION_SZ)

/-- `write` of a stream at a position; a gap behind the end is filled with zeros. -/
def writeAt (file : Bytes) (pos : ℕ) (bytes : Bytes) : Bytes :=
  file.take pos ++ List.replicate (pos - file.length) 0 ++ bytes ++ file.drop (pos + bytes.length)

def readAt (file : Bytes) (pos n : ℕ) : Option Bytes :=
  if pos + n ≤ file.length then some ((file.drop pos).take n) else none

/-- The common part of the two `append` functions, for what the node writes -/
def appendBytes (numBytes : ℕ) (written : Except StorageError Bytes) : Files ℕ := do
  let offset := appendOffset P (← get).lastOffset numBytes
  modify fun s => { s with lastOffset := offset }
  match written with
  | .error e => throw e
  | .ok bytes =>
    let (bucketIndex, file, pos) ← setFileOffset P offset
    modify fun s => { s with
      files := Function.update s.files bucketIndex (some (writeAt file pos bytes))
      lastOffset := s.lastOffset + numBytes }
    return offset

def appendLeafNode (l : TriedbLeaf) : Files ℕ :=
  appendBytes P (leafSerializationSize l)
    (if leafSerializationSize l < LEAF_MAX_SIZE_IN_BYTES then .ok (writeLeaf l)
      else .error .assertion)

/-- `append_branch_node`, whose size is asserted when it is computed -/
def appendBranchNode (b : TriedbBranch) : Files ℕ :=
  if BRANCH_MAX_SIZE_IN_BYTES ≤ b.serializationSize then throw .assertion
  else
    appendBytes P b.serializationSize
      (match writeBranch b with
        | some bytes => .ok bytes
        | none => .error .checkedCast)

/-- The bytes of a node whose size is below `limit`, which are the first four bytes -/
def readBytes (limit offset : ℕ) : Files Bytes := do
  let (_, file, pos) ← setFileOffset P offset
  match readAt file pos 4 with
  | none => throw .assertion
  | some head =>
    let size := (readUint32 head).toNat
    if ¬ (4 ≤ size ∧ size < limit) then throw .assertion
    match readAt file (pos + 4) (size - 4) with
    | none => throw .assertion
    | some rest => return head ++ rest

/-- `read_leaf_node` into a new leaf, from a buffer with four more bytes -/
def readLeafNode (offset : ℕ) : Files TriedbLeaf := do
  let buffer ← readBytes P LEAF_MAX_SIZE_IN_BYTES offset
  match readLeaf (buffer ++ List.replicate 4 0) with
  | some l => return l
  | none => throw .assertion

/-- `read_branch_node` into a new branch -/
def readBranchNode (offset : ℕ) : Files TriedbBranch := do
  let buffer ← readBytes P BRANCH_MAX_SIZE_IN_BYTES offset
  match readBranch buffer with
  | some b => return b
  | none => throw .assertion

/-- The first directory that does not exist, by its first bucket -/
def scanDirs (s : Storage) : (fuel : ℕ) → ℕ → Option ℕ
  | 0, _ => none
  | fuel + 1, i => if s.dirs (i / 64) then scanDirs s fuel (i + 64) else some i

/-- The first bucket from `i` on without a file -/
def scanFiles (s : Storage) : (fuel : ℕ) → ℕ → Option ℕ
  | 0, _ => none
  | fuel + 1, i => if (s.files i).isSome then scanFiles s fuel (i + 1) else some i

/-- `scan_last_bucket`: nothing when no file was found -/
def scanLastBucket (s : Storage) (fuel : ℕ) : Option (Option ℕ) := do
  let i ← scanDirs s fuel 0
  let i := if 0 < i then i - 64 else i
  let j ← scanFiles s fuel i
  return if i < j then some (j - 1) else none

def scanLastOffset (s : Storage) (fuel : ℕ) : Option ℕ := do
  match ← scanLastBucket s fuel with
  | none => return 0
  | some bucketIndex =>
    match getBucketStream bucketIndex s with
    | .ok file _ => return file.length - VERSION_SZ + bucketIndex * P.bucketSize
    | .error _ _ => none

end Source
section Specification

variable (P : TriedbParams)

def nodeSize : Node → ℕ
  | .leaf l => leafSerializationSize l
  | .branch b => b.serializationSize

def nodeBytes : Node → Bytes
  | .leaf l => writeLeaf l
  | .branch b => branchBytes b

def append : Node → Files ℕ
  | .leaf l => appendLeafNode P l
  | .branch b => appendBranchNode P b

def appendAll : List Node → Files (List ℕ)
  | [] => pure []
  | node :: rest => do
    let offset ← append P node
    let offsets ← appendAll rest
    return offset :: offsets

/-- What the fields of a node hold by their types -/
def Typed : Node → Prop
  | .leaf _ => True
  | .branch b => TypedBranch b

/-- What the checks let pass: a leaf is not too long, and the hash of a branch has a size of one
byte. -/
def Accepted : Node → Prop
  | .leaf l => leafSerializationSize l < LEAF_MAX_SIZE_IN_BYTES
  | .branch b => b.hash.length < 256

/-- The hash of a leaf has a size of one byte. -/
def ByteSized : Node → Prop
  | .leaf l => l.hash.length < 256
  | .branch _ => True

/-- The node is read at the offset, without a change of the files; of the array of a branch those
pointers that it uses. -/
def ReadsBack (s : Storage) (offset : ℕ) : Node → Prop
  | .leaf l => readLeafNode P offset s = .ok l s
  | .branch b => readBranchNode P offset s = .ok b.copy s

/-- Each node has bytes of its own in one bucket and is read back, and the last offset is found
again. -/
structure Stored (s : Storage) (entries : List (ℕ × Node)) : Prop where
  apart : entries.Pairwise fun a b =>
    a.1 + nodeSize a.2 ≤ b.1 ∨ b.1 + nodeSize b.2 ≤ a.1
  inBucket : ∀ e ∈ entries, (e.1 + nodeSize e.2 - 1) / P.bucketSize = e.1 / P.bucketSize
  readsBack : ∀ e ∈ entries, ReadsBack P s e.1 e.2
  rescanned : Finds (scanLastOffset P s) s.lastOffset

end Specification

section Layouts

variable (P : TriedbParams)

/-- The files after the bytes of the log were appended, the latest first -/
structure Layout (s : Storage) (log : List (ℕ × Bytes)) : Prop where
  ordered : log.Pairwise fun later earlier => earlier.1 + earlier.2.length ≤ later.1
  below : ∀ e ∈ log, e.1 + e.2.length ≤ s.lastOffset
  inBucket : ∀ e ∈ log, e.1 % P.bucketSize + e.2.length < P.bucketSize
  held : ∀ e ∈ log, ∃ file rest, s.files (e.1 / P.bucketSize) = some file ∧
    e.1 % P.bucketSize + VERSION_SZ ≤ file.length ∧
    file.drop (e.1 % P.bucketSize + VERSION_SZ) = e.2 ++ rest
  version : ∀ i file, s.files i = some file → file.take VERSION_SZ = VERSION
  buckets : s = Storage.new ∨
    (∃ file, s.files (s.lastOffset / P.bucketSize) = some file ∧
      file.length = s.lastOffset % P.bucketSize + VERSION_SZ) ∧
    (∀ i, (s.files i).isSome = true ↔ i ≤ s.lastOffset / P.bucketSize) ∧
    ∀ d, s.dirs d = true ↔ d ≤ s.lastOffset / P.bucketSize / 64

variable {P}

theorem layout_new : Layout P Storage.new [] :=
  ⟨.nil, nofun, nofun, nofun, fun _ _ found => (nomatch found), .inl rfl⟩

theorem bucket_place {B k r : ℕ} (inside : r < B) : (k * B + r) / B = k ∧ (k * B + r) % B = r := by
  constructor
  · rw [Nat.add_comm, Nat.add_mul_div_right _ _ (by omega), Nat.div_eq_of_lt inside, Nat.zero_add]
  · rw [Nat.add_comm, Nat.add_mul_mod_self_right, Nat.mod_eq_of_lt inside]

theorem appendOffset_cases (lastOffset n : ℕ) :
    (appendOffset P lastOffset n = lastOffset ∧ lastOffset % P.bucketSize + n < P.bucketSize) ∨
      appendOffset P lastOffset n = (lastOffset / P.bucketSize + 1) * P.bucketSize + 0 := by
  have split := Nat.div_add_mod lastOffset P.bucketSize
  rw [Nat.mul_comm] at split
  have place : lastOffset - lastOffset / P.bucketSize * P.bucketSize =
      lastOffset % P.bucketSize := by omega
  unfold appendOffset
  dsimp only
  rw [place]
  split_ifs with crossing
  · exact .inr rfl
  · exact .inl ⟨rfl, by omega⟩

theorem version_length : VERSION.length = VERSION_SZ := by decide

/-- The bucket where a node goes: its file ends at the place of the node. -/
structure Ready (P : TriedbParams) (s : Storage) (offset : ℕ) (file : Bytes) (s' : Storage) :
    Prop where
  stream : getBucketStream (offset / P.bucketSize) { s with lastOffset := offset } = .ok file s'
  ends : file.length = offset % P.bucketSize + VERSION_SZ
  version : file.take VERSION_SZ = VERSION
  lastOffset : s'.lastOffset = offset
  here : s'.files (offset / P.bucketSize) = some file
  others : ∀ i ≠ offset / P.bucketSize, s'.files i = s.files i
  old : ∀ old, s.files (offset / P.bucketSize) = some old → old = file
  files : ∀ i, (s'.files i).isSome = true ↔ i ≤ offset / P.bucketSize
  dirs : ∀ d, s'.dirs d = true ↔ d ≤ offset / P.bucketSize / 64

theorem ready_new {s : Storage} {offset : ℕ} (atStart : offset % P.bucketSize = 0)
    (missing : s.files (offset / P.bucketSize) = none)
    (files : ∀ i, (s.files i).isSome = true ↔ i < offset / P.bucketSize)
    (dirs : ∀ d, s.dirs d = true ∨ d = offset / P.bucketSize / 64 ↔
      d ≤ offset / P.bucketSize / 64) :
    ∃ s', Ready P s offset VERSION s' := by
  refine ⟨⟨Function.update s.dirs (offset / P.bucketSize / 64) true,
    Function.update s.files (offset / P.bucketSize) (some VERSION), offset⟩, ?_, ?_, ?_, rfl,
    Function.update_self _ _ _, fun i other => Function.update_of_ne other _ _, ?_, fun i => ?_,
    fun d => ?_⟩
  · unfold getBucketStream
    dsimp only
    rw [missing]
    exact if_pos (by decide)
  · rw [atStart, version_length, Nat.zero_add]
  · decide
  · intro old found
    rw [missing] at found
    cases found
  · dsimp only
    by_cases here : i = offset / P.bucketSize
    · rw [here, Function.update_self]
      exact iff_of_true rfl le_rfl
    · rw [Function.update_of_ne here, files]
      omega
  · dsimp only
    rw [← dirs]
    by_cases here : d = offset / P.bucketSize / 64
    · rw [here, Function.update_self]
      exact iff_of_true rfl (.inr rfl)
    · rw [Function.update_of_ne here]
      exact (or_iff_left here).symm

theorem ready_append {s : Storage} {log : List (ℕ × Bytes)} (layout : Layout P s log) {n : ℕ}
    (small : n < P.bucketSize) :
    ∃ file s', Ready P s (appendOffset P s.lastOffset n) file s' ∧
      appendOffset P s.lastOffset n % P.bucketSize + n < P.bucketSize ∧
      s.lastOffset ≤ appendOffset P s.lastOffset n := by
  have positive := P.bucketSize_pos
  obtain rfl | ⟨⟨file, found, ends⟩, files, dirs⟩ := layout.buckets
  · have zero : appendOffset P Storage.new.lastOffset n = 0 := by
      rcases @appendOffset_cases P Storage.new.lastOffset n with ⟨same, -⟩ | next
      · exact same
      · unfold appendOffset at next ⊢
        change (if 0 - 0 / P.bucketSize * P.bucketSize + n ≥ P.bucketSize then _ else 0) = 0
        rw [if_neg]
        rw [Nat.zero_sub, Nat.zero_add]
        omega
    rw [zero]
    obtain ⟨s', ready⟩ := @ready_new P Storage.new 0 (Nat.zero_mod _) rfl
      (fun i => by
        rw [Nat.zero_div]
        exact iff_of_false Bool.false_ne_true (Nat.not_lt_zero i))
      (fun d => by
        rw [Nat.zero_div, Nat.zero_div, Nat.le_zero]
        exact or_iff_right Bool.false_ne_true)
    refine ⟨VERSION, s', ready, ?_, Nat.le_refl 0⟩
    rw [Nat.zero_mod, Nat.zero_add]
    exact small
  · have split := Nat.div_add_mod s.lastOffset P.bucketSize
    rw [Nat.mul_comm] at split
    have room := Nat.mod_lt s.lastOffset positive
    rcases @appendOffset_cases P s.lastOffset n with ⟨same, fits⟩ | next
    · rw [same]
      refine ⟨file, s, ⟨?_, ends, layout.version _ _ found, rfl, found, fun _ _ => rfl, ?_, files,
        dirs⟩, fits, le_rfl⟩
      · unfold getBucketStream
        dsimp only
        rw [found]
        exact if_pos (layout.version _ _ found)
      · intro old found'
        exact Option.some.inj (found'.symm.trans found)
    · obtain ⟨bucket, place⟩ := @bucket_place _ (s.lastOffset / P.bucketSize + 1) 0 positive
      rw [← next] at bucket place
      obtain ⟨s', ready⟩ := @ready_new P s (appendOffset P s.lastOffset n) place
        (by
          rw [bucket, ← Option.not_isSome_iff_eq_none, files]
          omega)
        (fun i => by
          rw [bucket, files]
          omega)
        (fun d => by
          rw [bucket, dirs]
          omega)
      refine ⟨VERSION, s', ready, by omega, ?_⟩
      rw [next, Nat.add_mul]
      omega

theorem writeAt_end (file bytes : Bytes) : writeAt file file.length bytes = file ++ bytes := by
  unfold writeAt
  rw [List.take_length, Nat.sub_self, List.replicate_zero, List.append_nil,
    List.drop_of_length_le (by omega), List.append_nil]

end Layouts

section Appending

variable {P : TriedbParams} {s : Storage} {log : List (ℕ × Bytes)} {bytes : Bytes} {n : ℕ}

theorem Ready.layout {offset : ℕ} {file : Bytes} {s₁ : Storage} (layout : Layout P s log)
    (ready : Ready P s offset file s₁) (fits : offset % P.bucketSize + bytes.length < P.bucketSize)
    (grows : s.lastOffset ≤ offset) :
    Layout P ⟨s₁.dirs, Function.update s₁.files (offset / P.bucketSize) (some (file ++ bytes)),
      offset + bytes.length⟩ ((offset, bytes) :: log) := by
  obtain ⟨-, ends, version, -, here, others, old, files, dirs⟩ := ready
  have split := Nat.div_add_mod offset P.bucketSize
  rw [Nat.mul_comm] at split
  obtain ⟨bucket, place⟩ := @bucket_place _ (offset / P.bucketSize) _ fits
  rw [← Nat.add_assoc, split] at bucket place
  have longer (old : Bytes) (long : VERSION_SZ ≤ old.length) :
      (old ++ bytes).take VERSION_SZ = old.take VERSION_SZ := List.take_append_of_le_length long
  have ends' : (file ++ bytes).length = (offset + bytes.length) % P.bucketSize + VERSION_SZ := by
    rw [List.length_append, place]
    omega
  refine ⟨List.pairwise_cons.2 ⟨fun e inside => (layout.below e inside).trans grows,
    layout.ordered⟩, List.forall_mem_cons.2 ⟨le_rfl, fun e inside => ?_⟩,
    List.forall_mem_cons.2 ⟨fits, layout.inBucket⟩,
    List.forall_mem_cons.2 ⟨⟨file ++ bytes, [], Function.update_self _ _ _, ?_, ?_⟩,
      fun e inside => ?_⟩, fun i found isHere => ?_, .inr ⟨⟨file ++ bytes, ?_, ends'⟩, ?_, ?_⟩⟩
  · have below := layout.below e inside
    dsimp only
    omega
  · change offset % P.bucketSize + VERSION_SZ ≤ _
    rw [List.length_append]
    omega
  · rw [List.append_nil, List.drop_left' ends]
  · obtain ⟨held, rest, atFile, inside, dropped⟩ := layout.held e inside
    by_cases same : e.1 / P.bucketSize = offset / P.bucketSize
    · rw [same] at atFile
      obtain rfl := old held atFile
      refine ⟨held ++ bytes, rest ++ bytes, ?_, ?_, ?_⟩
      · dsimp only
        rw [same, Function.update_self]
      · rw [List.length_append]
        omega
      · rw [List.drop_append_of_le_length inside, dropped, List.append_assoc]
    · refine ⟨held, rest, ?_, inside, dropped⟩
      dsimp only
      rw [Function.update_of_ne same, others _ same, atFile]
  · dsimp only at isHere
    by_cases same : i = offset / P.bucketSize
    · rw [same, Function.update_self] at isHere
      cases isHere
      rw [List.take_append_of_le_length (by omega), version]
    · rw [Function.update_of_ne same, others _ same] at isHere
      exact layout.version i found isHere
  · dsimp only
    rw [bucket, Function.update_self]
  · intro i
    dsimp only
    rw [bucket]
    by_cases same : i = offset / P.bucketSize
    · rw [same, Function.update_self]
      exact iff_of_true rfl le_rfl
    · rw [Function.update_of_ne same, files]
  · intro d
    dsimp only
    rw [bucket, dirs]

theorem appendBytes_ok (layout : Layout P s log) (length : bytes.length = n)
    (small : n < P.bucketSize) :
    ∃ s', appendBytes P n (.ok bytes) s = .ok (appendOffset P s.lastOffset n) s' ∧
      Layout P s' ((appendOffset P s.lastOffset n, bytes) :: log) := by
  obtain ⟨file, s₁, ready, fits, grows⟩ := ready_append layout small
  subst length
  refine ⟨_, ?_, ready.layout layout fits grows⟩
  have split := Nat.div_add_mod (appendOffset P s.lastOffset bytes.length) P.bucketSize
  rw [Nat.mul_comm] at split
  have pos : appendOffset P s.lastOffset bytes.length -
      appendOffset P s.lastOffset bytes.length / P.bucketSize * P.bucketSize + VERSION_SZ =
      file.length := by
    rw [ready.ends]
    omega
  have written : writeAt file (appendOffset P s.lastOffset bytes.length -
      appendOffset P s.lastOffset bytes.length / P.bucketSize * P.bucketSize + VERSION_SZ) bytes =
      file ++ bytes := by rw [pos, writeAt_end]
  have last := ready.lastOffset
  unfold appendBytes setFileOffset
  simp only [bind, EStateM.bind, get, getThe, MonadStateOf.get, EStateM.get, modify, modifyGet,
    MonadStateOf.modifyGet, EStateM.modifyGet, pure, EStateM.pure, ready.stream, written, last]

end Appending
section Reading

variable {P : TriedbParams} {s : Storage} {log : List (ℕ × Bytes)} {bytes tail : Bytes}
  {offset limit : ℕ}

theorem readBytes_ok (layout : Layout P s log) (inside : (offset, bytes) ∈ log)
    (sized : bytes = writeUint32 (BitVec.ofNat 32 bytes.length) ++ tail)
    (short : bytes.length < limit) (limited : limit ≤ 2 ^ 32) :
    readBytes P limit offset s = .ok bytes s := by
  obtain ⟨file, rest, atFile, before, dropped⟩ := layout.held _ inside
  dsimp only at atFile before dropped
  have split := Nat.div_add_mod offset P.bucketSize
  rw [Nat.mul_comm] at split
  have stream : getBucketStream (offset / P.bucketSize) s = .ok file s := by
    unfold getBucketStream
    rw [atFile]
    exact if_pos (layout.version _ _ atFile)
  have pos : offset - offset / P.bucketSize * P.bucketSize = offset % P.bucketSize := by omega
  have long : 4 ≤ bytes.length := by
    rw [sized, List.length_append, length_writeUint32]
    omega
  have total := congrArg List.length dropped
  rw [List.length_drop, List.length_append] at total
  have head : readAt file (offset % P.bucketSize + VERSION_SZ) 4 = some (bytes.take 4) := by
    unfold readAt
    rw [if_pos (by omega), dropped, List.take_append_of_le_length long]
  have back : readAt file (offset % P.bucketSize + VERSION_SZ + 4) (bytes.length - 4) =
      some (bytes.drop 4) := by
    unfold readAt
    rw [if_pos (by omega), ← List.drop_drop, dropped, List.drop_append_of_le_length long,
      List.take_left' (List.length_drop)]
  have size : (readUint32 (bytes.take 4)).toNat = bytes.length := by
    have first : bytes.take 4 = writeUint32 (BitVec.ofNat 32 bytes.length) ++ [] := by
      conv_lhs => rw [sized]
      rw [List.take_left' (length_writeUint32 _), List.append_nil]
    rw [first, readUint32_append, BitVec.toNat_ofNat, Nat.mod_eq_of_lt (by omega)]
  unfold readBytes setFileOffset
  simp only [bind, EStateM.bind, pure, EStateM.pure, stream, pos, head, size, back, long, short,
    and_self, not_true_eq_false, if_false, List.take_append_drop]

variable {node : Node}

theorem length_nodeBytes (typed : Typed node) : (nodeBytes node).length = nodeSize node := by
  cases node with
  | leaf l => exact length_writeLeaf l
  | branch b => exact length_branchBytes typed.children

theorem readsBack_iff (layout : Layout P s log) (inside : (offset, nodeBytes node) ∈ log)
    (typed : Typed node) (accepted : Accepted node) :
    ReadsBack P s offset node ↔ ByteSized node := by
  cases node with
  | leaf l =>
    have got : readBytes P LEAF_MAX_SIZE_IN_BYTES offset s = .ok (writeLeaf l) s :=
      readBytes_ok layout inside (by rw [length_writeLeaf]; rfl)
        (by rw [length_writeLeaf]; exact accepted) (by decide)
    have same : readLeafNode P offset s = .ok l s ↔
        readLeaf (writeLeaf l ++ List.replicate 4 0) = some l := by
      unfold readLeafNode
      simp only [bind, EStateM.bind, got]
      cases readLeaf (writeLeaf l ++ List.replicate 4 0) with
      | none => exact iff_of_false nofun nofun
      | some l' =>
        constructor
        · intro same
          cases same
          rfl
        · intro same
          cases same
          rfl
    exact same.trans (readLeaf_iff l _ accepted)
  | branch b =>
    have got : readBytes P BRANCH_MAX_SIZE_IN_BYTES offset s = .ok (branchBytes b) s :=
      readBytes_ok layout inside (by rw [length_branchBytes typed.children]; rfl)
        (by rw [length_branchBytes typed.children]; exact serializationSize_lt accepted) (by decide)
    have read := readBranch_bytes typed accepted []
    rw [List.append_nil] at read
    refine iff_of_true ?_ trivial
    unfold ReadsBack readBranchNode
    simp only [bind, EStateM.bind, got, read]
    rfl

end Reading

section Scanning

variable {P : TriedbParams} {s : Storage} {log : List (ℕ × Bytes)}

theorem scanDirs_eq {last : ℕ} (dirs : ∀ d, s.dirs d = true ↔ d ≤ last) (j fuel : ℕ)
    (inside : j ≤ last + 1) (enough : last + 1 - j < fuel) :
    scanDirs s fuel (64 * j) = some (64 * (last + 1)) := by
  induction fuel generalizing j with
  | zero => omega
  | succ fuel ih =>
    have place : 64 * j / 64 = j := Nat.mul_div_cancel_left j (by decide)
    unfold scanDirs
    rw [place]
    by_cases below : j ≤ last
    · rw [if_pos ((dirs j).2 below), show 64 * j + 64 = 64 * (j + 1) by omega]
      exact ih (j + 1) (by omega) (by omega)
    · rw [if_neg (fun found => below ((dirs j).1 found)), show j = last + 1 by omega]

theorem scanFiles_eq {last : ℕ} (files : ∀ i, (s.files i).isSome = true ↔ i ≤ last) (i fuel : ℕ)
    (inside : i ≤ last + 1) (enough : last + 1 - i < fuel) :
    scanFiles s fuel i = some (last + 1) := by
  induction fuel generalizing i with
  | zero => omega
  | succ fuel ih =>
    unfold scanFiles
    by_cases below : i ≤ last
    · rw [if_pos ((files i).2 below)]
      exact ih (i + 1) (by omega) (by omega)
    · rw [if_neg (fun found => below ((files i).1 found)), show i = last + 1 by omega]

theorem finds_scanLastOffset (layout : Layout P s log) :
    Finds (scanLastOffset P s) s.lastOffset := by
  obtain rfl | ⟨⟨file, found, ends⟩, files, dirs⟩ := layout.buckets
  · exact ⟨1, rfl⟩
  · generalize last_eq : s.lastOffset / P.bucketSize = last at *
    have split := Nat.div_add_mod s.lastOffset P.bucketSize
    rw [Nat.mul_comm, last_eq] at split
    refine ⟨last + 2, ?_⟩
    have dir := scanDirs_eq dirs 0 (last + 2) (by omega) (by omega)
    rw [Nat.mul_zero] at dir
    have next := scanFiles_eq files (64 * (last / 64 + 1) - 64) (last + 2) (by omega) (by omega)
    have bucket : scanLastBucket s (last + 2) = some (some last) := by
      unfold scanLastBucket
      simp only [dir, Option.bind_eq_bind, Option.bind_some,
        if_pos (show 0 < 64 * (last / 64 + 1) by omega), next,
        if_pos (show 64 * (last / 64 + 1) - 64 < last + 1 by omega), Nat.add_sub_cancel]
      rfl
    have stream : getBucketStream last s = .ok file s := by
      unfold getBucketStream
      rw [found]
      exact if_pos (layout.version _ _ found)
    unfold scanLastOffset
    simp only [bucket, stream, Option.bind_eq_bind, Option.bind_some, ends]
    change some _ = some _
    congr 1
    omega

end Scanning

section Runs

variable {P : TriedbParams} {s : Storage} {log : List (ℕ × Bytes)} {node : Node}
  {nodes : List Node}

theorem nodeSize_pos (node : Node) : 0 < nodeSize node := by
  cases node with
  | leaf l =>
    change 0 < leafSerializationSize l
    unfold leafSerializationSize
    omega
  | branch b =>
    change 0 < b.serializationSize
    unfold TriedbBranch.serializationSize
    omega

theorem append_ok (layout : Layout P s log) (typed : Typed node) (accepted : Accepted node)
    (small : nodeSize node < P.bucketSize) :
    ∃ offset s', append P node s = .ok offset s' ∧
      Layout P s' ((offset, nodeBytes node) :: log) := by
  obtain ⟨s', appended, layout'⟩ := appendBytes_ok layout (length_nodeBytes typed) small
  refine ⟨_, s', ?_, layout'⟩
  rw [← appended]
  cases node with
  | leaf l =>
    have short : leafSerializationSize l < LEAF_MAX_SIZE_IN_BYTES := accepted
    change appendLeafNode P l s = _
    unfold appendLeafNode
    rw [if_pos short]
    rfl
  | branch b =>
    have short : ¬ BRANCH_MAX_SIZE_IN_BYTES ≤ b.serializationSize :=
      Nat.not_le.2 (serializationSize_lt accepted)
    have written : writeBranch b = some (branchBytes b) :=
      Option.bind_eq_some_iff.2 ⟨(), if_pos accepted, rfl⟩
    change appendBranchNode P b s = _
    unfold appendBranchNode
    rw [if_neg short, written]
    rfl

theorem append_error (rejected : ¬ Accepted node) : ∃ e s', append P node s = .error e s' := by
  cases node with
  | leaf l =>
    have long : ¬ leafSerializationSize l < LEAF_MAX_SIZE_IN_BYTES := rejected
    change ∃ e s', appendLeafNode P l s = .error e s'
    unfold appendLeafNode
    rw [if_neg long]
    exact ⟨.assertion, _, rfl⟩
  | branch b =>
    have large : ¬ b.hash.length < 256 := rejected
    have written : writeBranch b = none := by
      unfold writeBranch guard
      rw [if_neg large]
      rfl
    change ∃ e s', appendBranchNode P b s = .error e s'
    unfold appendBranchNode
    rw [written]
    by_cases long : BRANCH_MAX_SIZE_IN_BYTES ≤ b.serializationSize
    · rw [if_pos long]
      exact ⟨.assertion, s, rfl⟩
    · rw [if_neg long]
      exact ⟨.checkedCast, _, rfl⟩

theorem appendAll_ok (layout : Layout P s log) (typed : ∀ node ∈ nodes, Typed node)
    (accepted : ∀ node ∈ nodes, Accepted node)
    (small : ∀ node ∈ nodes, nodeSize node < P.bucketSize) :
    ∃ offsets s', appendAll P nodes s = .ok offsets s' ∧ offsets.length = nodes.length ∧
      Layout P s' (((offsets.zip nodes).map fun e => (e.1, nodeBytes e.2)).reverse ++ log) := by
  induction nodes generalizing s log with
  | nil => exact ⟨[], s, rfl, rfl, layout⟩
  | cons node nodes ih =>
    obtain ⟨typedFirst, typedRest⟩ := List.forall_mem_cons.1 typed
    obtain ⟨acceptedFirst, acceptedRest⟩ := List.forall_mem_cons.1 accepted
    obtain ⟨smallFirst, smallRest⟩ := List.forall_mem_cons.1 small
    obtain ⟨offset, s₁, appended, layout₁⟩ := append_ok layout typedFirst acceptedFirst smallFirst
    obtain ⟨offsets, s', ran, length, layout'⟩ := ih layout₁ typedRest acceptedRest smallRest
    refine ⟨offset :: offsets, s', ?_, by rw [List.length_cons, List.length_cons, length], ?_⟩
    · unfold appendAll
      simp only [bind, EStateM.bind, appended, ran]
      rfl
    · rw [List.zip_cons_cons, List.map_cons, List.reverse_cons, List.append_assoc,
        List.singleton_append]
      exact layout'

theorem accepted_of_appendAll {offsets : List ℕ} {s' : Storage}
    (ran : appendAll P nodes s = .ok offsets s') : ∀ node ∈ nodes, Accepted node := by
  induction nodes generalizing s offsets with
  | nil => nofun
  | cons node nodes ih =>
    unfold appendAll at ran
    simp only [bind, EStateM.bind] at ran
    cases appended : append P node s with
    | error e s₁ =>
      rw [appended] at ran
      cases ran
    | ok offset s₁ =>
      rw [appended] at ran
      dsimp only at ran
      have first : Accepted node := by
        by_contra rejected
        obtain ⟨e, s₂, failed⟩ := @append_error P s node rejected
        rw [failed] at appended
        cases appended
      cases rest : appendAll P nodes s₁ with
      | error e s₂ =>
        rw [rest] at ran
        cases ran
      | ok offsets' s₂ =>
        rw [rest] at ran
        cases ran
        exact List.forall_mem_cons.2 ⟨first, ih rest⟩

theorem stored_entries_iff {entries : List (ℕ × Node)}
    (layout : Layout P s (entries.map fun e => (e.1, nodeBytes e.2)).reverse)
    (typed : ∀ e ∈ entries, Typed e.2) (accepted : ∀ e ∈ entries, Accepted e.2) :
    Stored P s entries ↔ ∀ e ∈ entries, ByteSized e.2 := by
  have inside (e : ℕ × Node) (mem : e ∈ entries) :
      (e.1, nodeBytes e.2) ∈ (entries.map fun e => (e.1, nodeBytes e.2)).reverse :=
    List.mem_reverse.2 (List.mem_map_of_mem mem)
  have back (e : ℕ × Node) (mem : e ∈ entries) : ReadsBack P s e.1 e.2 ↔ ByteSized e.2 :=
    readsBack_iff layout (inside e mem) (typed e mem) (accepted e mem)
  refine ⟨fun stored e mem => (back e mem).1 (stored.readsBack e mem), fun sized =>
    ⟨?_, fun e mem => ?_, fun e mem => (back e mem).2 (sized e mem),
      finds_scanLastOffset layout⟩⟩
  · have ordered := List.pairwise_map.1 (List.pairwise_reverse.1 layout.ordered)
    refine ordered.imp_of_mem fun {a b} memA memB before => .inl ?_
    dsimp only at before
    rwa [length_nodeBytes (typed a memA)] at before
  · have fits := layout.inBucket _ (inside e mem)
    dsimp only at fits
    rw [length_nodeBytes (typed e mem)] at fits
    have positive := nodeSize_pos e.2
    have split := Nat.div_add_mod e.1 P.bucketSize
    rw [Nat.mul_comm] at split
    have last := (@bucket_place P.bucketSize (e.1 / P.bucketSize)
      (e.1 % P.bucketSize + (nodeSize e.2 - 1)) (by omega)).1
    rwa [← Nat.add_assoc, split, ← Nat.add_sub_assoc positive] at last

theorem stored_of_run (typed : ∀ node ∈ nodes, Typed node)
    (small : ∀ node ∈ nodes, nodeSize node < P.bucketSize) {offsets : List ℕ}
    (ran : appendAll P nodes Storage.new = .ok offsets s) :
    Stored P s (offsets.zip nodes) ↔ ∀ node ∈ nodes, ByteSized node := by
  have accepted := accepted_of_appendAll ran
  obtain ⟨offsets', s', ran', length, layout⟩ := appendAll_ok layout_new typed accepted small
  rw [ran] at ran'
  cases ran'
  rw [List.append_nil] at layout
  have second (e : ℕ × Node) (mem : e ∈ offsets.zip nodes) : e.2 ∈ nodes :=
    (List.of_mem_zip mem).2
  rw [stored_entries_iff layout (fun e mem => typed _ (second e mem))
    fun e mem => accepted _ (second e mem)]
  constructor
  · intro sized node mem
    obtain ⟨i, below, rfl⟩ := List.mem_iff_getElem.1 mem
    have inside : i < (offsets.zip nodes).length := by rw [List.length_zip]; omega
    have entry : (offsets.zip nodes)[i] ∈ offsets.zip nodes := List.getElem_mem inside
    rw [List.getElem_zip] at entry
    exact sized _ entry
  · exact fun sized e mem => sized _ (second e mem)

/-- Nodes smaller than a bucket, appended to a new database: the run ends well just when every leaf
is shorter than the longest one and the hash of every branch has a size of one byte, and then all is
stored just when the hash of every leaf has such a size, too. -/
theorem nodes_stored_iff (P : TriedbParams) (nodes : List Node)
    (typed : ∀ node ∈ nodes, Typed node) (small : ∀ node ∈ nodes, nodeSize node < P.bucketSize) :
    ((∃ offsets s, appendAll P nodes Storage.new = .ok offsets s ∧ offsets.length = nodes.length) ↔
      ∀ node ∈ nodes, Accepted node) ∧
    ∀ offsets s, appendAll P nodes Storage.new = .ok offsets s →
      (Stored P s (offsets.zip nodes) ↔ ∀ node ∈ nodes, ByteSized node) := by
  refine ⟨⟨?_, fun accepted => ?_⟩, fun offsets s ran => stored_of_run typed small ran⟩
  · rintro ⟨offsets, s, ran, -⟩
    exact accepted_of_appendAll ran
  · obtain ⟨offsets, s, ran, length, -⟩ := appendAll_ok layout_new typed accepted small
    exact ⟨offsets, s, ran, length⟩

def smallBuckets : TriedbParams :=
  ⟨1024, by decide, true, fun _ => List.replicate 32 0, fun _ => rfl⟩

/-- A leaf and the branch above it are stored. -/
theorem two_nodes_stored : ∃ offsets s,
    appendAll smallBuckets
      [.leaf ⟨5, [1, 2, 3], List.replicate 32 7⟩, .branch ⟨1, 32, 32, 1, [0], []⟩] Storage.new =
        .ok offsets s ∧
    Stored smallBuckets s (offsets.zip
      [.leaf ⟨5, [1, 2, 3], List.replicate 32 7⟩, .branch ⟨1, 32, 32, 1, [0], []⟩]) := by
  have branch : TypedBranch ⟨1, 32, 32, 1, [0], []⟩ := ⟨by decide, by decide, by decide⟩
  have stored := nodes_stored_iff smallBuckets
    [.leaf ⟨5, [1, 2, 3], List.replicate 32 7⟩, .branch ⟨1, 32, 32, 1, [0], []⟩]
    (by simpa [Typed] using branch) (by decide)
  obtain ⟨offsets, s, ran, -⟩ := stored.1.2 (by simp [Accepted, leafSerializationSize,
    LEAF_MAX_SIZE_IN_BYTES])
  exact ⟨offsets, s, ran, (stored.2 offsets s ran).2 (by simp [ByteSized])⟩

/-- A leaf with a hash of 256 bytes is not read back. -/
theorem long_hash_lost : ¬ ∀ (P : TriedbParams) (nodes : List Node),
    (∀ node ∈ nodes, Typed node) → (∀ node ∈ nodes, nodeSize node < P.bucketSize) →
    ∀ offsets s, appendAll P nodes Storage.new = .ok offsets s →
      Stored P s (offsets.zip nodes) := by
  intro always
  obtain ⟨hash, length⟩ : ∃ hash : List UInt8, hash.length = 256 :=
    ⟨List.replicate 256 7, List.length_replicate⟩
  have typed : ∀ node ∈ [Node.leaf ⟨5, [], hash⟩], Typed node := by
    simp [Typed]
  have small : ∀ node ∈ [Node.leaf ⟨5, [], hash⟩], nodeSize node < smallBuckets.bucketSize := by
    simp [nodeSize, leafSerializationSize, smallBuckets, length]
  obtain ⟨offsets, s, ran, -, -⟩ := appendAll_ok (P := smallBuckets) layout_new typed
    (by simp [Accepted, leafSerializationSize, LEAF_MAX_SIZE_IN_BYTES, length]) small
  have sized := (stored_of_run typed small ran).1 (always _ _ typed small offsets s ran)
  simp [ByteSized, length] at sized

end Runs

end Epilog.Db.NodeStorage
