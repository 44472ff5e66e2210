/- Module: Epilog/Db/Merge
   source: src/src/db/triedb.cpp (update with a merkle_root and with a merkle_branch)
   digest: Merging a Merkle part into a root, and the tree and the counts this leads to. -/

import Epilog.Db.Counts
import Epilog.Db.Merkle

set_option autoImplicit false

namespace Epilog.Db.Merge

open Epilog.Lib.DigitTree Epilog.Lib.TreeShape Epilog.Common.Bits Epilog.Db.Branch
open Epilog.Db.Store Epilog.Db.Representation Epilog.Db.PathUpdate Epilog.Db.Annotation
open Epilog.Db.Versioned Epilog.Db.Merkle Epilog.Db.Upkeep Epilog.Db.Counts

section Update

variable (P : TriedbParams)

/-- The old branch at a position, if there is one. -/
def subBranch (br : Option TriedbBranch) (subIndex : Fin 32) : Access (Option TriedbBranch) :=
  match br with
  | none => return none
  | some br =>
      if br.isBranch subIndex then do
        let sub ← getBranch (br.getChildPointer subIndex)
        return some sub
      else return none

/-- The loop of `update(br, mbr)` over the children; `sub` is the recursive call. -/
def updateChildren (sub : Fin 32 → Option TriedbBranch → Access (ℕ × UInt64))
    (br : Option TriedbBranch) (child : Fin 32 → MerkleNode) :
    List (Fin 32) → TriedbBranch → UInt64 → Access (TriedbBranch × UInt64)
  | [], newBranch, newEntries => return (newBranch, newEntries)
  | subIndex :: rest, newBranch, newEntries =>
      match child subIndex with
      | .null => updateChildren sub br child rest newBranch newEntries
      | .leaf _ none _ =>
          -- Data that did not come with the part is read through a null pointer.
          throw .assertion
      | .leaf key (some data) hash => do
          let newEntries :=
            if newBranch.getChildPointer subIndex = 0 then newEntries + 1 else newEntries
          let ptr ← appendLeafNode P { key := key, customData := data, hash := hash }
          updateChildren sub br child rest
            ((newBranch.setLeaf subIndex).setChildPointer subIndex ptr) newEntries
      | .branch _ _ _ _ => do
          let subBr ← subBranch br subIndex
          let (ptr, subNewEntries) ← sub subIndex subBr
          let _ ← getBranch ptr
          updateChildren sub br child rest
            ((newBranch.setBranch subIndex).setChildPointer subIndex ptr)
            (newEntries + subNewEntries)

/-- The branch that `update(br, mbr)` starts from. -/
def startBranch (br : Option TriedbBranch) (depth : UInt8) (mask : BitVec 32) : TriedbBranch :=
  match br with
  | none => (({} : TriedbBranch).setMask mask).setDepth depth.toNat
  | some br => (br.copy.setMask (mask ||| br.mask)).setDepth depth.toNat

/-- `update(br, mbr)`: the new pointer and the number of new entries -/
def updateBranch : MerkleNode → Option TriedbBranch → Access (ℕ × UInt64)
  | .null, _ => throw .assertion
  | .leaf _ _ _, _ => throw .assertion
  | .branch depth mask child hash, br => do
      let (newBranch, newEntries) ← updateChildren P (fun i subBr => updateBranch (child i) subBr)
        br child (List.finRange 32) (startBranch br depth mask) 0
      let newBranch := (newBranch.setHash hash).addNumEntries newEntries
      let ptr ← appendBranchNode P newBranch
      return (ptr, newEntries)

def setNumEntries (id : RootId) (n : UInt64) : Access Unit := modifyNumEntries id fun _ => n

def updateRoot (atRoot : RootId) (part : MerkleRoot) : Access Unit := do
  let root ← getRoot atRoot
  let br ← getBranch root.ptr
  let (ptr, _) ← updateBranch P part.node (some br)
  let tbr ← getBranch ptr
  setNumEntries atRoot tbr.num
  setRoot atRoot ptr

end Update

section Merged

def childAt : Tree 32 Bytes → Children
  | .branch c => c
  | _ => fun _ => .empty

/-- The tree after merging a part: what the part does not name stays. -/
def merged : MerkleNode → Tree 32 Bytes → Tree 32 Bytes
  | .null, t => t
  | .leaf key data _, _ => .leaf key.toNat (data.getD [])
  | .branch _ _ child _, t => .branch fun i => merged (child i) (childAt t i)

/-- How many leaves of the part stand where nothing was. -/
def newKeys : MerkleNode → Tree 32 Bytes → ℕ
  | .null, _ => 0
  | .leaf _ _ _, t => if t.isEmpty then 1 else 0
  | .branch _ _ child _, t => ∑ i, newKeys (child i) (childAt t i)

/-- The part comes with its data and stands over the tree: keys and depths belong where they are,
and it has leaves only over leaves and branches only over branches. -/
def Mergeable : MerkleNode → ℕ → ℕ → Tree 32 Bytes → Prop
  | .null, _, _, _ => True
  | .leaf key data _, d, q, t =>
      data.isSome = true ∧ key.toNat / 32 ^ d = q ∧ (t = .empty ∨ ∃ k v, t = .leaf k v)
  | .branch depth mask child _, d, q, t =>
      depth.toNat = d ∧ 1 ≤ d ∧ (t = .empty ∨ ∃ c, t = .branch c) ∧
        (∀ i : Fin 32, mask.getLsbD i.val = !(child i).isNull) ∧
        ∀ i, Mergeable (child i) (d - 1) (q * 32 + i.val) (childAt t i)

/-- Every leaf of the part passes the limit of its size. -/
def Fitting : MerkleNode → Prop
  | .null => True
  | .leaf key data hash => leafSerializationSize
      { key := key, customData := data.getD [], hash := hash } < LEAF_MAX_SIZE_IN_BYTES
  | .branch _ _ child _ => ∀ i, Fitting (child i)

theorem size_merged {m : MerkleNode} {d q : ℕ} {t : Tree 32 Bytes} (mergeable : Mergeable m d q t) :
    size (merged m t) = size t + newKeys m t := by
  induction m generalizing d q t with
  | null => rfl
  | leaf key data hash =>
    obtain ⟨-, -, rfl | ⟨k, v, rfl⟩⟩ := mergeable <;> simp [merged, newKeys, Tree.isEmpty]
  | branch depth mask child hash ih =>
    obtain ⟨-, -, shape, -, below⟩ := mergeable
    have whole : ∑ i, size (childAt t i) = size t := by
      rcases shape with rfl | ⟨c, rfl⟩
      · exact Finset.sum_eq_zero fun _ _ => rfl
      · rw [size_branch, childAt]
    rw [merged, newKeys, size_branch, ← whole, ← Finset.sum_add_distrib]
    exact Finset.sum_congr rfl fun i _ => ih i (below i)

theorem fits_merged {m : MerkleNode} {d q : ℕ} {t : Tree 32 Bytes} (mergeable : Mergeable m d q t)
    (fits : t.Fits d q) : (merged m t).Fits d q := by
  induction m generalizing d q t with
  | null => exact fits
  | leaf key data hash => exact mergeable.2.1
  | branch depth mask child hash ih =>
    obtain ⟨-, pos, shape, -, below⟩ := mergeable
    obtain ⟨d, rfl⟩ := Nat.exists_eq_add_of_le' pos
    intro i
    apply ih i (below i)
    rcases shape with rfl | ⟨c, rfl⟩
    · trivial
    · exact fits i

end Merged

section Loop

variable {P : TriedbParams}

/-- A branch that counts its leaves, and so does everything below it. -/
def Counted (s : Triedb) (d : ℕ) (b : TriedbBranch) (c : Children) : Prop :=
  b.num = UInt64.ofNat (size (.branch c)) ∧ Annotated countNotes s d b c

theorem counted_slot_mono {s s' : Triedb} {d : ℕ} {slot : Slot} {t : Tree 32 Bytes}
    (grows : Extends s s') (here : SlotAnnotated countNotes s (Counted s d) slot t) :
    SlotAnnotated countNotes s' (Counted s' d) slot t := by
  cases slot with
  | empty => exact here
  | leaf p =>
    obtain ⟨l, stored, shape, noted⟩ := here
    exact ⟨l, grows.nodes _ _ stored, shape, noted⟩
  | branch p =>
    obtain ⟨b, c, stored, shape, num, ann⟩ := here
    exact ⟨b, c, grows.nodes _ _ stored, shape, num, ann.mono grows.nodes⟩

/-- The old branch, if there is one, holds the old children. -/
def OldSlots (s : Triedb) (d : ℕ) (br : Option TriedbBranch) (c : Children) : Prop :=
  ∀ i, SlotAnnotated countNotes s (Counted s d) ((br.getD {}).slot i) (c i)

/-- The new branch while the children in `todo` are still to come: their slots are occupied, but
only the others are filled. -/
structure Halfway (s : Triedb) (d : ℕ) (child : Fin 32 → MerkleNode) (c : Children)
    (todo : List (Fin 32)) (b : TriedbBranch) : Prop where
  full : b.Full
  depth : b.depth = d + 1
  filled : ∀ i, (i ∈ todo → child i = .null) →
    SlotAnnotated countNotes s (Counted s d) (b.slot i) (merged (child i) (c i))
  occupied : ∀ i ∈ todo, child i ≠ .null → b.slot i ≠ .empty
  vacant : ∀ i ∈ todo, ∀ key data hash, child i = .leaf key data hash →
    ((b.pointer i).getD 0 = 0 ↔ c i = .empty)

variable {s s' : Triedb} {d : ℕ} {child : Fin 32 → MerkleNode} {c : Children}
  {todo : List (Fin 32)} {b : TriedbBranch}

theorem Halfway.extend (half : Halfway s d child c todo b) (grows : Extends s s') :
    Halfway s' d child c todo b :=
  { half with filled := fun i skipped => counted_slot_mono grows (half.filled i skipped) }

theorem Halfway.skip {i : Fin 32} (half : Halfway s d child c (i :: todo) b)
    (null : child i = .null) : Halfway s d child c todo b where
  full := half.full
  depth := half.depth
  filled j skipped := by
    apply half.filled j
    intro member
    rcases List.mem_cons.mp member with rfl | member
    · exact null
    · exact skipped member
  occupied j member := half.occupied j (by simp [member])
  vacant j member := half.vacant j (by simp [member])

theorem Halfway.fill {i : Fin 32} {b' : TriedbBranch}
    (half : Halfway s d child c (i :: todo) b) (slot : Slot) (distinct : i ∉ todo) (full : b'.Full)
    (depth : b'.depth = b.depth) (slots : ∀ j, b'.slot j = if j = i then slot else b.slot j)
    (pointers : ∀ j, j ≠ i → b'.pointer j = b.pointer j)
    (here : SlotAnnotated countNotes s (Counted s d) slot (merged (child i) (c i))) :
    Halfway s d child c todo b' where
  full := full
  depth := depth.trans half.depth
  filled j skipped := by
    rw [slots j]
    split_ifs with same
    · subst same
      exact here
    · apply half.filled j
      intro member
      exact skipped ((List.mem_cons.mp member).resolve_left same)
  occupied j member := by
    have other : j ≠ i := fun same => distinct (same ▸ member)
    rw [slots j, if_neg other]
    exact half.occupied j (by simp [member])
  vacant j member := by
    rw [pointers j fun same => distinct (same ▸ member)]
    exact half.vacant j (by simp [member])

/-- What is left behind by merging one part. -/
inductive MergeOutcome (s : Triedb) (d : ℕ) (m : MerkleNode) (t : Tree 32 Bytes) :
    EStateM.Result Error Triedb (ℕ × UInt64) → Prop
  | done (p : ℕ) (n : UInt64) (s' : Triedb) (b : TriedbBranch) (c : Children)
      (grows : Extends s s') (fresh : Fresh s') (stored : s'.nodes p = some (.branch b))
      (shape : merged m t = .branch c) (counted : Counted s' d b c) (hash : b.hash = m.hash)
      (fitting : Fitting m) (entries : n = UInt64.ofNat (newKeys m t)) :
      MergeOutcome s d m t (.ok (p, n) s')
  | oversized (s' : Triedb) (big : ¬ Fitting m) : MergeOutcome s d m t (.error .assertion s')

/-- What is left behind by the loop over the children in `todo`. -/
inductive LoopOutcome (s : Triedb) (d : ℕ) (child : Fin 32 → MerkleNode) (c : Children)
    (todo : List (Fin 32)) (b : TriedbBranch) (n : UInt64) :
    EStateM.Result Error Triedb (TriedbBranch × UInt64) → Prop
  | done (b' : TriedbBranch) (n' : UInt64) (s' : Triedb) (grows : Extends s s')
      (fresh : Fresh s') (half : Halfway s' d child c [] b') (num : b'.num = b.num)
      (fitting : ∀ i ∈ todo, Fitting (child i))
      (entries : n' = n + UInt64.ofNat (todo.map fun i => newKeys (child i) (c i)).sum) :
      LoopOutcome s d child c todo b n (.ok (b', n') s')
  | oversized (s' : Triedb) (big : ∃ i ∈ todo, ¬ Fitting (child i)) :
      LoopOutcome s d child c todo b n (.error .assertion s')

theorem LoopOutcome.after {i : Fin 32} {b' : TriedbBranch} {n n' : UInt64}
    {result : EStateM.Result Error Triedb (TriedbBranch × UInt64)} (grows : Extends s s')
    (num : b'.num = b.num) (fitting : Fitting (child i))
    (entries : n' = n + UInt64.ofNat (newKeys (child i) (c i)))
    (rest : LoopOutcome s' d child c todo b' n' result) :
    LoopOutcome s d child c (i :: todo) b n result := by
  cases rest with
  | done b₂ n₂ s₂ grows₂ fresh₂ half₂ num₂ fitting₂ entries₂ =>
    refine .done b₂ n₂ s₂ (grows.trans grows₂) fresh₂ half₂ (num₂.trans num) ?_ ?_
    · intro j member
      rcases List.mem_cons.mp member with rfl | member
      · exact fitting
      · exact fitting₂ j member
    · rw [entries₂, entries, List.map_cons, List.sum_cons, UInt64.ofNat_add, UInt64.add_assoc]
  | oversized s₂ big =>
    obtain ⟨j, member, big⟩ := big
    exact .oversized s₂ ⟨j, by simp [member], big⟩

theorem slot_of_empty {slot : Slot}
    (here : SlotAnnotated countNotes s (Counted s d) slot .empty) : slot = .empty := by
  cases slot with
  | empty => rfl
  | leaf p =>
    obtain ⟨l, -, shape, -⟩ := here
    cases shape
  | branch p =>
    obtain ⟨b, c, -, shape, -⟩ := here
    cases shape

theorem slot_default (i : Fin 32) : ({} : TriedbBranch).slot i = .empty := by
  rw [slot_eq_empty_iff]
  simp

theorem oldSlots_none : OldSlots s d none fun _ => .empty := by
  intro i
  rw [Option.getD_none, slot_default]
  rfl

theorem subBranch_ok {br : Option TriedbBranch} (old : OldSlots s (d + 1) br c) (i : Fin 32)
    (shape : c i = .empty ∨ ∃ c', c i = .branch c') :
    ∃ subBr, subBranch br i s = .ok subBr s ∧ OldSlots s d subBr (childAt (c i)) ∧
      (subBr.getD {}).num = UInt64.ofNat (size (.branch (childAt (c i)))) := by
  have slot := old i
  rcases shape with empty | ⟨c', branch⟩
  · rw [empty] at slot ⊢
    have none : subBranch br i s = .ok none s := by
      cases br with
      | none => rfl
      | some b =>
        have free := (slot_eq_empty_iff b i).mp (slot_of_empty slot)
        unfold subBranch
        dsimp only
        rw [if_neg (by rw [isBranch_eq, free]; exact Bool.false_ne_true)]
        rfl
    refine ⟨_, none, oldSlots_none, ?_⟩
    rw [childAt, size_childless]
    · rfl
    · intro c shape
      cases shape
  · rw [branch] at slot ⊢
    cases br with
    | none =>
      rw [Option.getD_none, slot_default] at slot
      cases slot
    | some b =>
      rw [Option.getD_some] at slot
      cases here : b.slot i with
      | empty =>
        rw [here] at slot
        cases slot
      | leaf p =>
        rw [here] at slot
        obtain ⟨l, -, shape, -⟩ := slot
        cases shape
      | branch p =>
        obtain ⟨occupied, bit, pointer⟩ := of_slot_branch here
        rw [here] at slot
        obtain ⟨b', c'', stored, shape, num, ann⟩ := slot
        cases shape
        refine ⟨some b', ?_, ann.2.2, num⟩
        unfold subBranch
        dsimp only
        rw [if_pos (by rw [isBranch_eq, occupied, bit]; decide), pointer,
          bind_ok (getBranch_ok stored)]
        rfl

theorem updateChildren_outcome (sub : Fin 32 → Option TriedbBranch → Access (ℕ × UInt64))
    {br : Option TriedbBranch} {q : Fin 32 → ℕ} (fresh : Fresh s) (begun : Begun s)
    (old : OldSlots s d br c) (half : Halfway s d child c todo b) (distinct : todo.Nodup)
    (mergeable : ∀ i, Mergeable (child i) d (q i) (c i))
    (calls : ∀ i s' subBr, Fresh s' → Begun s' → (∃ depth mask below hash,
      child i = .branch depth mask below hash) → OldSlots s' (d - 1) subBr (childAt (c i)) →
      (subBr.getD {}).num = UInt64.ofNat (size (.branch (childAt (c i)))) →
      MergeOutcome s' d (child i) (c i) (sub i subBr s')) (n : UInt64) :
    LoopOutcome s d child c todo b n (updateChildren P sub br child todo b n s) := by
  induction todo generalizing s b n with
  | nil => exact .done b n s (.refl s) fresh half rfl (by simp) (by simp)
  | cons i todo ih =>
    obtain ⟨other, distinct'⟩ := List.nodup_cons.mp distinct
    have here := mergeable i
    have occupied := half.occupied i (by simp)
    have vacant := half.vacant i (by simp)
    unfold updateChildren
    cases node : child i with
    | null =>
      dsimp only
      exact (ih fresh begun old (half.skip node) distinct' n).after (.refl s) rfl
        (by rw [node]; trivial) (by rw [node]; simp [newKeys])
    | leaf key data hash =>
      rw [node] at here occupied
      have taken := occupied nofun
      obtain ⟨present, -, shape⟩ := here
      obtain ⟨data, rfl⟩ := Option.isSome_iff_exists.mp present
      dsimp only
      by_cases small : leafSerializationSize { key := key, customData := data, hash := hash } <
          LEAF_MAX_SIZE_IN_BYTES
      · obtain ⟨p, s₁, appended, -⟩ := appendLeafNode_ok P fresh _ small
        obtain ⟨grows, fresh₁, stored, pos, -⟩ := appendLeafNode_eq_ok fresh begun appended
        rw [bind_ok appended]
        have filled : Halfway s₁ d child c todo ((b.setLeaf i).setChildPointer i p) :=
          (half.extend grows).fill (.leaf p) other (full_set_child_pointer half.full i p) rfl
            (fun j => slot_put_leaf half.full i j p)
            (fun j differs => by
              exact (pointer_set_child_pointer half.full i j p).trans (if_neg differs))
            (by rw [node]; exact ⟨_, stored, rfl, pos⟩)
        have pointer : b.getChildPointer i = 0 ↔ (c i).isEmpty = true := by
          have used : b.mask.getLsbD i.val = true := by
            rw [ne_eq, slot_eq_empty_iff] at taken
            simpa using taken
          rw [getChildPointer_eq b i used, Tree.isEmpty_iff]
          exact vacant key _ hash node
        have num : ((b.setLeaf i).setChildPointer i p).num = b.num := rfl
        refine (ih fresh₁ (begun.extend grows) (fun j => counted_slot_mono grows (old j)) filled
          distinct' _).after grows num (by rw [node]; exact small) ?_
        rw [node]
        simp only [newKeys, pointer]
        split
        · rfl
        · simp
      · obtain ⟨s₁, failed⟩ := appendLeafNode_error P s _ small
        rw [bind_error failed]
        exact .oversized s₁ ⟨i, by simp, by rw [node]; exact small⟩
    | branch depth mask below hash =>
      rw [node] at here
      obtain ⟨-, pos, shape, -, -⟩ := here
      obtain ⟨d, rfl⟩ := Nat.exists_eq_add_of_le' pos
      obtain ⟨subBr, found, below_slots, num⟩ := subBranch_ok old i shape
      dsimp only
      rw [bind_ok found]
      have call := calls i s subBr fresh begun ⟨_, _, _, _, node⟩ below_slots num
      cases result : sub i subBr s with
      | error e s₁ =>
        rw [result] at call
        rw [bind_error result]
        cases call with
        | oversized _ big => exact .oversized s₁ ⟨i, by simp, big⟩
      | ok pair s₁ =>
        obtain ⟨p, subNewEntries⟩ := pair
        rw [result] at call
        rw [bind_ok result]
        cases call with
        | done _ _ _ b' c' grows fresh₁ stored merges counted _ fitting entries =>
          dsimp only
          rw [bind_ok (getBranch_ok stored)]
          have filled : Halfway s₁ (d + 1) child c todo ((b.setBranch i).setChildPointer i p) :=
            (half.extend grows).fill (.branch p) other (full_set_child_pointer half.full i p)
              rfl (fun j => slot_put_branch half.full i j p)
              (fun j differs => by
                exact (pointer_set_child_pointer half.full i j p).trans (if_neg differs))
              (by exact ⟨b', c', stored, merges, counted⟩)
          have num : ((b.setBranch i).setChildPointer i p).num = b.num := rfl
          exact (ih fresh₁ (begun.extend grows) (fun j => counted_slot_mono grows (old j)) filled
            distinct' _).after grows num fitting (by rw [entries])

theorem startBranch_eq (br : Option TriedbBranch) (depth : UInt8) (mask : BitVec 32) :
    startBranch br depth mask =
      ((br.getD {}).copy.setMask (mask ||| (br.getD {}).mask)).setDepth depth.toNat := by
  cases br with
  | none =>
    unfold startBranch
    rw [Option.getD_none, show (mask ||| ({} : TriedbBranch).mask) = mask from BitVec.or_zero]
    rfl
  | some b => rfl

theorem halfway_start {br : Option TriedbBranch} {depth : UInt8} {mask : BitVec 32} {q : Fin 32 → ℕ}
    (old : OldSlots s d br c) (depth_eq : depth.toNat = d + 1)
    (masks : ∀ i : Fin 32, mask.getLsbD i.val = !(child i).isNull)
    (mergeable : ∀ i, Mergeable (child i) d (q i) (c i)) :
    Halfway s d child c (List.finRange 32) (startBranch br depth mask) := by
  rw [startBranch_eq]
  have small := depth.toNat_lt
  have slots : ∀ i, (((br.getD {}).copy.setMask (mask ||| (br.getD {}).mask)).setDepth
      depth.toNat).slot i = if (mask ||| (br.getD {}).mask).getLsbD i.val = false then .empty
        else if (br.getD {}).mask.getLsbD i.val then (br.getD {}).slot i
        else if (br.getD {}).leaf.getLsbD i.val then .leaf 0 else .branch 0 := by
    intro i
    have := slot_set_mask (b := (br.getD {}).copy) (mask ||| (br.getD {}).mask) i
    rwa [slot_copy] at this
  refine ⟨full_set_mask _, (Nat.mod_eq_of_lt small).trans depth_eq, ?_, ?_, ?_⟩
  · intro i skipped
    have null := skipped (List.mem_finRange i)
    have slot := old i
    have bit := masks i
    rw [null] at bit ⊢
    rw [slots i, BitVec.getLsbD_or, bit]
    cases used : (br.getD {}).mask.getLsbD i.val with
    | false =>
      rw [(slot_eq_empty_iff _ i).mpr used] at slot
      exact slot
    | true => exact slot
  · intro i _ present
    have bit : mask.getLsbD i.val = true := by
      rw [masks i, Bool.not_eq_true', Bool.eq_false_iff, ne_eq, MerkleNode.isNull_iff]
      exact present
    rw [ne_eq, slots i, BitVec.getLsbD_or, bit]
    cases used : (br.getD {}).mask.getLsbD i.val with
    | false => split_ifs <;> simp_all
    | true =>
      have taken := mt (slot_eq_empty_iff (br.getD {}) i).mp (by rw [used]; decide)
      simpa using taken
  · intro i _ key data hash node
    have bit : mask.getLsbD i.val = true := by rw [masks i, node]; rfl
    have slot := old i
    have shape : c i = .empty ∨ ∃ k v, c i = .leaf k v := by
      have here := mergeable i
      rw [node] at here
      exact here.2.2
    have pointer : ((((br.getD {}).copy.setMask (mask ||| (br.getD {}).mask)).setDepth
        depth.toNat).pointer i) = some (if (br.getD {}).copy.isEmpty i then 0
          else (br.getD {}).copy.getChildPointer i) := by
      have := pointer_set_mask (b := (br.getD {}).copy) (mask ||| (br.getD {}).mask) i
      rwa [BitVec.getLsbD_or, bit, Bool.true_or, if_pos rfl] at this
    rw [pointer, Option.getD_some, isEmpty_eq, copy_mask]
    cases used : (br.getD {}).mask.getLsbD i.val with
    | false =>
      rw [(slot_eq_empty_iff _ i).mpr used] at slot
      have empty : c i = .empty := slot
      simp [empty]
    | true =>
      rw [getChildPointer_eq _ i (by rw [copy_mask]; exact used), pointer_copy,
        ← getChildPointer_eq _ i used]
      rcases shape with empty | ⟨k, v, leaf⟩
      · rw [empty] at slot
        rw [(slot_eq_empty_iff _ i).mp (slot_of_empty slot)] at used
        cases used
      · rw [leaf] at slot
        cases here : (br.getD {}).slot i with
        | empty =>
          rw [here] at slot
          cases slot
        | branch p =>
          rw [here] at slot
          obtain ⟨b', c', -, shape, -⟩ := slot
          cases shape
        | leaf p =>
          rw [here] at slot
          obtain ⟨l, -, -, pos⟩ := slot
          have pos : 0 < p := pos
          obtain ⟨-, -, pointer⟩ := of_slot_leaf here
          rw [pointer, leaf]
          simp only [Bool.not_true, Bool.false_eq_true, if_false]
          constructor
          · intro zero
            omega
          · intro impossible
            cases impossible

theorem updateBranch_outcome {m : MerkleNode} {q : ℕ} {t : Tree 32 Bytes}
    {br : Option TriedbBranch} (isBranch : ∃ depth mask below hash,
      m = .branch depth mask below hash) (fresh : Fresh s) (begun : Begun s)
    (mergeable : Mergeable m d q t) (old : OldSlots s (d - 1) br (childAt t))
    (num : (br.getD {}).num = UInt64.ofNat (size (.branch (childAt t)))) :
    MergeOutcome s d m t (updateBranch P m br s) := by
  induction m generalizing s d q t br with
  | null =>
    obtain ⟨_, _, _, _, shape⟩ := isBranch
    cases shape
  | leaf key data hash =>
    obtain ⟨_, _, _, _, shape⟩ := isBranch
    cases shape
  | branch depth mask child hash ih =>
    have counts := size_merged mergeable
    obtain ⟨depth_eq, pos, shape, masks, below⟩ := mergeable
    obtain ⟨d, rfl⟩ := Nat.exists_eq_add_of_le' pos
    have sizes : size t = size (.branch (childAt t)) := by
      rcases shape with rfl | ⟨c, rfl⟩
      · exact size_childless.symm
      · rfl
    have start := halfway_start old depth_eq masks below
    have loop := updateChildren_outcome (P := P)
      (fun i subBr => updateBranch P (child i) subBr) fresh begun old start
      (List.nodup_finRange 32) below
      (fun i s' subBr fresh' begun' node slots count =>
        ih i node fresh' begun' (below i) slots count) 0
    unfold updateBranch
    cases result : updateChildren P (fun i subBr => updateBranch P (child i) subBr) br child
        (List.finRange 32) (startBranch br depth mask) 0 s with
    | error e s₁ =>
      rw [result] at loop
      rw [bind_error result]
      cases loop with
      | oversized _ big =>
        obtain ⟨i, -, big⟩ := big
        exact .oversized s₁ fun fitting => big (fitting i)
    | ok pair s₁ =>
      obtain ⟨b, n⟩ := pair
      rw [result] at loop
      rw [bind_ok result]
      cases loop with
      | done _ _ _ grows fresh₁ half same fitting entries =>
        have total : n = UInt64.ofNat (newKeys (.branch depth mask child hash) t) := by
          rw [entries, newKeys, Fin.sum_univ_def]
          exact UInt64.zero_add _
        have old_num : b.num = (br.getD {}).num := by
          rw [same, startBranch_eq]
          rfl
        have grows₂ := extends_appendNode P fresh₁ (.branch ((b.setHash hash).addNumEntries n))
          ((b.setHash hash).addNumEntries n).serializationSize
        refine .done _ n _ ((b.setHash hash).addNumEntries n)
          (fun i => merged (child i) (childAt t i)) (grows.trans grows₂)
          (fresh_appendNode P fresh₁ _ (serializationSize_pos _)) (nodes_appendNode P _ _ _) rfl
          ⟨?_, ?_⟩ rfl (fun i => fitting i (List.mem_finRange i)) total
        · change b.num + n = _
          rw [merged] at counts
          rw [counts, old_num, num, total, sizes, UInt64.ofNat_add]
        · have ann : Annotated countNotes s₁ (d + 1) b fun i => merged (child i) (childAt t i) :=
            ⟨half.depth, half.full, fun i => half.filled i (by simp)⟩
          exact ((ann.setHash).addNumEntries n).mono grows₂.nodes

end Loop

section Root

variable {P : TriedbParams} {s : Triedb} {r : RootId} {root : TriedbRoot} {d : ℕ}
  {b : TriedbBranch} {c : Children} {part : MerkleRoot}

/-- The part stands over the tree of the root. A root without children takes a part of any depth. -/
structure Accepts (d : ℕ) (c : Children) (part : MerkleRoot) : Prop where
  depth : part.depth.toNat = d ∨ ∀ i, c i = .empty
  shallow : part.depth.toNat ≤ MAX_DEPTH
  mergeable : Mergeable part.node part.depth.toNat 0 (.branch c)

/-- The state after a part has been merged into a root. -/
structure PartMerged (P : TriedbParams) (s s' : Triedb) (r : RootId) (part : MerkleRoot)
    (c : Children) (root' : TriedbRoot) (b' : TriedbBranch) (c' : Children) : Prop where
  keep : ∀ p n, s.nodes p = some n → s'.nodes p = some n
  fresh : Fresh s'
  rootsPos_pos : 0 < s'.rootsPos
  lookup : ∀ q, s'.roots.lookup q = if q = r then some root' else s.roots.lookup q
  held : RootKept (countUpkeep (P := P)) AnyShape s' root' part.depth.toNat b' c'
  shape : merged part.node (.branch c) = .branch c'
  hash : b'.hash = part.hash

theorem updateRoot_outcome (fresh : Fresh s) (entry : s.roots.lookup r = some root)
    (held : RootKept (countUpkeep (P := P)) AnyShape s root d b c) (accepts : Accepts d c part) :
    (Fitting part.node → ∃ s' root' b' c', updateRoot P r part s = .ok () s' ∧
      PartMerged P s s' r part c root' b' c') ∧
    (¬ Fitting part.node → ∃ s', updateRoot P r part s = .error .assertion s') := by
  have begun : Begun s := ⟨_, _, held.stored⟩
  have old : OldSlots s (part.depth.toNat - 1) (some b) c := by
    obtain ⟨e, rfl⟩ := Nat.exists_eq_add_of_le' held.ann.rep.pos
    intro i
    rw [Option.getD_some]
    rcases accepts.depth with same | childless
    · rw [same]
      exact held.ann.2.2 i
    · have slot := held.ann.2.2 i
      rw [childless i] at slot ⊢
      have free : b.slot i = .empty := slot_of_empty slot
      rw [free]
      rfl
  have outcome : MergeOutcome s part.depth.toNat part.node (.branch c)
      (updateBranch P part.node (some b) s) :=
    updateBranch_outcome ⟨_, _, _, _, rfl⟩ fresh begun accepts.mergeable old held.noted
  have call : updateRoot P r part s = (updateBranch P part.node (some b) >>= fun (ptr, _) => do
      let tbr ← getBranch ptr
      setNumEntries r tbr.num
      setRoot r ptr) s := by
    unfold updateRoot
    rw [bind_ok (getRoot_ok entry), bind_ok (getBranch_ok held.stored)]
  rw [call]
  cases result : updateBranch P part.node (some b) s with
  | error e s₁ =>
    rw [result] at outcome
    rw [bind_error result]
    cases outcome with
    | oversized _ big => exact ⟨fun fitting => absurd fitting big, fun _ => ⟨s₁, rfl⟩⟩
  | ok pair s₁ =>
    obtain ⟨p, n⟩ := pair
    rw [result] at outcome
    rw [bind_ok result]
    cases outcome with
    | done _ _ _ b' c' grows fresh₁ stored shape counted hash fitting =>
      refine ⟨fun _ => ?_, fun big => absurd fitting big⟩
      have entry₁ : s₁.roots.lookup r = some root := by rw [grows.roots, entry]
      have counting : setNumEntries r b'.num s₁ = .ok ()
          (s₁.setRootEntry r { root with numEntries := b'.num }) := bind_ok (getRoot_ok entry₁)
      have entry₂ : (s₁.setRootEntry r { root with numEntries := b'.num }).roots.lookup r =
          some { root with numEntries := b'.num } := by
        rw [lookup_setRootEntry, if_pos rfl]
      have moved : (do setNumEntries r b'.num; setRoot r p) s₁ = _ :=
        (bind_ok counting).trans (bind_ok (getRoot_ok entry₂))
      have held₁ : RootKept (countUpkeep (P := P)) AnyShape s₁
          { root with numEntries := b'.num, ptr := p } part.depth.toNat b' c' :=
        { shallow := accepts.shallow
          stored := stored
          ann := counted.2
          noted := counted.1
          fits := shape ▸ fits_merged accepts.mergeable (by
            rcases accepts.depth with same | childless
            · rw [same]
              exact held.fits
            · obtain ⟨e, pos⟩ := Nat.exists_eq_add_of_le' accepts.mergeable.2.1
              rw [pos]
              intro i
              rw [childless i]
              trivial)
          shaped := trivial
          count := counted.1 }
      dsimp only
      rw [bind_ok (getBranch_ok stored)]
      refine ⟨_, { root with numEntries := b'.num, ptr := p }, b', c', moved, grows.nodes, fresh₁,
        Nat.add_pos_right _ (by decide), fun q => ?_, ?_, shape, hash⟩
      · refine (lookup_setRootEntry _ _ _ q).trans ?_
        split_ifs with here
        · rfl
        · exact ((lookup_setRootEntry _ _ _ q).trans (if_neg here)).trans (by rw [grows.roots])
      · exact RootKept.mono (s := s₁) (fun _ _ stored => stored) rfl rfl held₁

end Root

end Epilog.Db.Merge
