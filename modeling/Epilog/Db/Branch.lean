/- Module: Epilog/Db/Branch
   source: src/src/db/triedb.hpp, src/src/db/triedb.cpp
   digest: Leaf and branch nodes of the trie database, with the packed child pointers. -/

import Epilog.Lib.PackedSlots
import Mathlib.Algebra.GroupWithZero.Nat

set_option autoImplicit false

namespace Epilog.Db.Branch

open Epilog.Lib.PackedSlots

-- The bounds of indices are named, and no definition makes up a proof of its own.
instance neZero_32 : NeZero 32 := ⟨by decide⟩

def MAX_BRANCH_BITS : ℕ := 5
def MAX_BRANCH : ℕ := 32

abbrev Bytes := List UInt8

/-- `triedb_leaf`: the key, the custom data and the hash of a stored entry. -/
structure TriedbLeaf where
  key : UInt64
  customData : Bytes
  hash : Bytes
  deriving DecidableEq, Repr

/-- `triedb_branch`: `ptr` holds the pointers of the occupied slots in slot order. -/
structure TriedbBranch where
  depth : ℕ := 0
  mask : BitVec 32 := 0
  leaf : BitVec 32 := 0
  num : UInt64 := 0
  ptr : List ℕ := []
  hash : Bytes := []
  deriving DecidableEq, Repr

/-- `std::bitset<MAX_BRANCH>(m).count()` -/
def count (m : BitVec 32) : ℕ := Nat.count (fun j => m.getLsbD j = true) 32

namespace TriedbBranch

def numChildren (b : TriedbBranch) : ℕ := count b.mask

/-- The number of occupied slots below `sub_index`, which is where its pointer stands. -/
def childIndex (b : TriedbBranch) (sub_index : Fin 32) : ℕ :=
  count (b.mask &&& ((1#32 <<< sub_index.val) - 1#32))

/-- The copy constructor copies only the pointers of occupied slots. -/
def copy (b : TriedbBranch) : TriedbBranch := { b with ptr := b.ptr.take b.numChildren }

def isEmpty (b : TriedbBranch) (sub_index : Fin 32) : Bool :=
  ((b.mask >>> sub_index.val) &&& 1#32) == 0#32

def isLeaf (b : TriedbBranch) (sub_index : Fin 32) : Bool :=
  !b.isEmpty sub_index && ((b.leaf >>> sub_index.val) &&& 1#32) != 0#32

def isBranch (b : TriedbBranch) (sub_index : Fin 32) : Bool :=
  !b.isEmpty sub_index && !b.isLeaf sub_index

def setLeaf (b : TriedbBranch) (sub_index : Fin 32) : TriedbBranch :=
  { b with leaf := b.leaf ||| (1#32 <<< sub_index.val) }

def setBranch (b : TriedbBranch) (sub_index : Fin 32) : TriedbBranch :=
  { b with leaf := b.leaf &&& ~~~(1#32 <<< sub_index.val) }

def getChildPointer (b : TriedbBranch) (sub_index : Fin 32) : ℕ :=
  b.ptr.getD (b.childIndex sub_index) 0

def setChildPointer (b : TriedbBranch) (sub_index : Fin 32) (p : ℕ) : TriedbBranch :=
  let ci := b.childIndex sub_index
  { b with
    ptr :=
      if b.isEmpty sub_index then
        b.ptr.take ci ++ p :: (b.ptr.drop ci).take (b.numChildren - ci)
      else b.ptr.set ci p
    mask := b.mask ||| (1#32 <<< sub_index.val) }

/-- The pointers behind the removed one move down and the last of them is cleared, also when there
is none to remove. -/
def setEmpty (b : TriedbBranch) (sub_index : Fin 32) : TriedbBranch :=
  let ci := b.childIndex sub_index
  let n := b.numChildren
  { b with
    ptr := b.ptr.take (min ci (n - 1)) ++ (b.ptr.drop (ci + 1)).take (n - 1 - ci) ++
      0 :: b.ptr.drop n
    leaf := b.leaf &&& ~~~(1#32 <<< sub_index.val)
    mask := b.mask &&& ~~~(1#32 <<< sub_index.val) }

/-- The pointers are rearranged for the new mask; new positions get the pointer 0. -/
def setMask (b : TriedbBranch) (m : BitVec 32) : TriedbBranch :=
  { b with
    ptr := gather m.getLsbD 32 fun i =>
      if b.isEmpty (Fin.ofNat 32 i) then 0 else b.getChildPointer (Fin.ofNat 32 i)
    mask := m }

def addNumEntries (b : TriedbBranch) (dn : UInt64) : TriedbBranch := { b with num := b.num + dn }
def subNumEntries (b : TriedbBranch) (dn : UInt64) : TriedbBranch := { b with num := b.num - dn }

/-- `depth_` is an unsigned byte. -/
def setDepth (b : TriedbBranch) (d : ℕ) : TriedbBranch := { b with depth := d % 256 }

def setHash (b : TriedbBranch) (h : Bytes) : TriedbBranch := { b with hash := h }

def serializationSize (b : TriedbBranch) : ℕ :=
  4 + 1 + 1 + 4 + 4 + 8 + 8 * b.numChildren + b.hash.length

end TriedbBranch

open TriedbBranch

/-- What a branch holds at one of its positions. -/
inductive Slot
  | empty
  | leaf (ptr : ℕ)
  | branch (ptr : ℕ)
  deriving DecidableEq

def TriedbBranch.slot (b : TriedbBranch) (i : Fin 32) : Slot :=
  if b.isEmpty i then .empty
  else if b.isLeaf i then .leaf (b.getChildPointer i)
  else .branch (b.getChildPointer i)

/-- The pointer array has a cell for every occupied slot. -/
def TriedbBranch.Full (b : TriedbBranch) : Prop := Packed 32 b.mask.getLsbD b.ptr

private theorem getLsbD_below : ∀ i j : Fin 32,
    ((1#32 <<< i.val) - 1#32).getLsbD j.val = decide (j.val < i.val) := by
  decide

theorem and_one_beq (m : BitVec 32) (i : ℕ) :
    (((m >>> i) &&& 1#32) == 0#32) = !m.getLsbD i := by
  rw [BitVec.and_one_eq_setWidth_ofBool_getLsbD, BitVec.getLsbD_ushiftRight, Nat.add_zero]
  cases m.getLsbD i <;> rfl

@[simp] theorem isEmpty_eq (b : TriedbBranch) (i : Fin 32) :
    b.isEmpty i = !b.mask.getLsbD i.val :=
  and_one_beq b.mask i.val

@[simp] theorem isLeaf_eq (b : TriedbBranch) (i : Fin 32) :
    b.isLeaf i = (b.mask.getLsbD i.val && b.leaf.getLsbD i.val) := by
  simp [TriedbBranch.isLeaf, bne, and_one_beq]

@[simp] theorem isBranch_eq (b : TriedbBranch) (i : Fin 32) :
    b.isBranch i = (b.mask.getLsbD i.val && !b.leaf.getLsbD i.val) := by
  simp only [TriedbBranch.isBranch, isEmpty_eq, isLeaf_eq]
  cases b.mask.getLsbD i.val <;> rfl

theorem count_below (m : BitVec 32) (i : Fin 32) :
    count (m &&& ((1#32 <<< i.val) - 1#32)) = rank m.getLsbD i.val := by
  have split : ∀ k ≤ 32, rank (m &&& ((1#32 <<< i.val) - 1#32)).getLsbD k =
      rank m.getLsbD (min k i.val) := by
    intro k hk
    induction k with
    | zero => simp [rank]
    | succ k ih =>
        rw [rank_succ, ih (by omega), BitVec.getLsbD_and, getLsbD_below i ⟨k, by omega⟩]
        by_cases below : k < i.val
        · rw [min_eq_left below.le, min_eq_left below, rank_succ]
          simp [below]
        · rw [min_eq_right (by omega), min_eq_right (by omega)]
          simp [below]
  have := split 32 le_rfl
  rwa [min_eq_right i.isLt.le] at this

theorem childIndex_eq (b : TriedbBranch) (i : Fin 32) :
    b.childIndex i = rank b.mask.getLsbD i.val :=
  count_below b.mask i

theorem count_above (m : BitVec 32) (i : Fin 32) :
    rank m.getLsbD (i.val + 1) + count ((m >>> i.val) >>> 1) = rank m.getLsbD 32 := by
  have shifted : count ((m >>> i.val) >>> 1) =
      Nat.count (fun j => m.getLsbD (i.val + 1 + j) = true) 32 := by
    unfold count
    congr 1
    funext j
    rw [BitVec.getLsbD_ushiftRight, BitVec.getLsbD_ushiftRight, ← Nat.add_assoc]
  have outside : Nat.count (fun j => m.getLsbD (32 + j) = true) (i.val + 1) = 0 := by
    rw [Nat.count_iff_forall_not]
    intro j _
    rw [BitVec.getLsbD_of_ge _ _ (by omega)]
    exact Bool.false_ne_true
  rw [shifted, rank, rank, ← Nat.count_add, Nat.add_comm (i.val + 1), Nat.count_add, outside,
    Nat.add_zero]

theorem numChildren_eq (b : TriedbBranch) : b.numChildren = rank b.mask.getLsbD 32 := rfl

theorem getLsbD_one_shift (i j : Fin 32) :
    (1#32 <<< i.val).getLsbD j.val = decide (j.val = i.val) := by
  rw [BitVec.getLsbD_shiftLeft, BitVec.getLsbD_one]
  have := j.isLt
  by_cases same : j.val = i.val
  · simp [same]
  · by_cases below : j.val < i.val
    · simp [same, below]
    · have : ¬ j.val - i.val = 0 := by omega
      simp [same, this]

theorem getLsbD_set (m : BitVec 32) (i j : Fin 32) :
    (m ||| (1#32 <<< i.val)).getLsbD j.val = Function.update m.getLsbD i.val true j.val := by
  rw [BitVec.getLsbD_or, getLsbD_one_shift, Function.update_apply]
  by_cases same : j.val = i.val <;> simp [same]

theorem getLsbD_clear (m : BitVec 32) (i j : Fin 32) :
    (m &&& ~~~(1#32 <<< i.val)).getLsbD j.val = Function.update m.getLsbD i.val false j.val := by
  rw [BitVec.getLsbD_and, BitVec.getLsbD_not, getLsbD_one_shift, Function.update_apply]
  by_cases same : j.val = i.val <;> simp [same]

theorem rank_set (m : BitVec 32) (i : Fin 32) {k : ℕ} (le : k ≤ 32) :
    rank (m ||| (1#32 <<< i.val)).getLsbD k = rank (Function.update m.getLsbD i.val true) k :=
  rank_congr fun j less => getLsbD_set m i ⟨j, by omega⟩

theorem rank_clear (m : BitVec 32) (i : Fin 32) {k : ℕ} (le : k ≤ 32) :
    rank (m &&& ~~~(1#32 <<< i.val)).getLsbD k =
      rank (Function.update m.getLsbD i.val false) k :=
  rank_congr fun j less => getLsbD_clear m i ⟨j, by omega⟩

/-- The pointer of slot `i`, read through the packed array. -/
def TriedbBranch.pointer (b : TriedbBranch) (i : Fin 32) : Option ℕ :=
  Lib.PackedSlots.slot b.mask.getLsbD b.ptr i.val

theorem getChildPointer_eq (b : TriedbBranch) (i : Fin 32) (occupied : b.mask.getLsbD i.val) :
    b.getChildPointer i = (b.pointer i).getD 0 := by
  simp [TriedbBranch.getChildPointer, childIndex_eq, TriedbBranch.pointer, Lib.PackedSlots.slot,
    occupied]

theorem slot_eq (b : TriedbBranch) (i : Fin 32) :
    b.slot i = if b.mask.getLsbD i.val = false then .empty
      else if b.leaf.getLsbD i.val then .leaf ((b.pointer i).getD 0)
      else .branch ((b.pointer i).getD 0) := by
  unfold TriedbBranch.slot
  rw [isEmpty_eq, isLeaf_eq]
  cases occupied : b.mask.getLsbD i.val with
  | false => rfl
  | true => rw [getChildPointer_eq b i occupied]; rfl

theorem slot_eq_empty_iff (b : TriedbBranch) (i : Fin 32) :
    b.slot i = .empty ↔ b.mask.getLsbD i.val = false := by
  rw [slot_eq]
  split
  · simp_all
  · split <;> simp_all

theorem mask_eq_zero_iff (b : TriedbBranch) : b.mask = 0 ↔ ∀ i, b.slot i = .empty := by
  simp only [slot_eq_empty_iff]
  constructor
  · rintro zero i
    simp [zero]
  · intro none_set
    apply BitVec.eq_of_getLsbD_eq
    intro j less
    simpa using none_set ⟨j, less⟩

@[simp] theorem copy_mask (b : TriedbBranch) : b.copy.mask = b.mask := rfl
@[simp] theorem copy_leaf (b : TriedbBranch) : b.copy.leaf = b.leaf := rfl
@[simp] theorem copy_depth (b : TriedbBranch) : b.copy.depth = b.depth := rfl

theorem copy_full {b : TriedbBranch} (full : b.Full) : b.copy.Full := packed_take full

@[simp] theorem pointer_copy (b : TriedbBranch) (i : Fin 32) : b.copy.pointer i = b.pointer i :=
  slot_take i.isLt

@[simp] theorem slot_copy (b : TriedbBranch) (i : Fin 32) : b.copy.slot i = b.slot i := by
  simp [slot_eq]

theorem full_fresh (d : ℕ) : (({} : TriedbBranch).setDepth d).Full := by
  simp only [TriedbBranch.Full, TriedbBranch.setDepth, Packed]
  have : ∀ k, rank (0#32).getLsbD k = 0 := by
    intro k
    induction k with
    | zero => simp [rank]
    | succ k ih => rw [rank_succ, ih]; simp
  exact (this 32).le

theorem slot_congr {α : Type} {used used' : ℕ → Bool} (packed : List α) {j : Fin 32}
    (same : ∀ k : Fin 32, used k.val = used' k.val) :
    Lib.PackedSlots.slot used packed j.val = Lib.PackedSlots.slot used' packed j.val := by
  unfold Lib.PackedSlots.slot
  rw [same j, rank_congr fun k less => same ⟨k, by omega⟩]

theorem pointer_set_child_pointer {b : TriedbBranch} (full : b.Full) (i j : Fin 32) (p : ℕ) :
    (b.setChildPointer i p).pointer j = if j = i then some p else b.pointer j := by
  have index : (j.val = i.val) = (j = i) := by rw [Fin.ext_iff]
  simp only [TriedbBranch.pointer, TriedbBranch.setChildPointer, isEmpty_eq, childIndex_eq]
  rw [slot_congr _ (fun k => getLsbD_set b.mask i k)]
  cases occupied : b.mask.getLsbD i.val with
  | false =>
      have := slot_insertAt (x := p) full i.isLt occupied j.isLt
      simpa only [Bool.not_false, if_true, index, insertAt, numChildren_eq] using this
  | true =>
      have restore : Function.update b.mask.getLsbD i.val true = b.mask.getLsbD := by
        rw [← occupied, Function.update_eq_self]
      have := slot_set (x := p) (j := j.val) full i.isLt occupied
      rw [restore]
      simpa only [Bool.not_true, Bool.false_eq_true, if_false, index] using this

theorem full_set_child_pointer {b : TriedbBranch} (full : b.Full) (i : Fin 32) (p : ℕ) :
    (b.setChildPointer i p).Full := by
  simp only [TriedbBranch.Full, TriedbBranch.setChildPointer, isEmpty_eq, childIndex_eq,
    Packed, rank_set b.mask i le_rfl]
  cases occupied : b.mask.getLsbD i.val with
  | false => exact packed_insertAt full i.isLt occupied
  | true =>
      have restore : Function.update b.mask.getLsbD i.val true = b.mask.getLsbD := by
        rw [← occupied, Function.update_eq_self]
      rw [restore]
      exact packed_set full

theorem setEmpty_take {b : TriedbBranch} (full : b.Full) {i : Fin 32}
    (occupied : b.mask.getLsbD i.val = true) :
    (b.setEmpty i).ptr.take (b.numChildren - 1) =
      (removeAt b.mask.getLsbD b.ptr i.val).take (b.numChildren - 1) := by
  have here : rank b.mask.getLsbD i.val < rank b.mask.getLsbD 32 := rank_lt occupied i.isLt
  have length : rank b.mask.getLsbD 32 ≤ b.ptr.length := full
  simp only [TriedbBranch.setEmpty, childIndex_eq, numChildren_eq, removeAt]
  generalize rank b.mask.getLsbD 32 = n at *
  generalize rank b.mask.getLsbD i.val = ci at *
  have shape : (b.ptr.take (min ci (n - 1)) ++ (b.ptr.drop (ci + 1)).take (n - 1 - ci)).length =
      n - 1 := by
    rw [List.length_append, List.length_take, List.length_take, List.length_drop]
    omega
  rw [List.take_append_of_le_length shape.ge, List.take_of_length_le shape.le,
    min_eq_left (by omega), List.eraseIdx_eq_take_drop_succ, List.take_append, List.length_take,
    min_eq_left (by omega), List.take_take, min_eq_right (by omega)]

theorem pointer_set_empty {b : TriedbBranch} (full : b.Full) {i : Fin 32}
    (occupied : b.mask.getLsbD i.val = true) (j : Fin 32) :
    (b.setEmpty i).pointer j = if j = i then none else b.pointer j := by
  have index : (j.val = i.val) = (j = i) := by rw [Fin.ext_iff]
  have fewer : rank (Function.update b.mask.getLsbD i.val false) 32 = b.numChildren - 1 := by
    have shift := rank_update_false occupied 32
    rw [if_pos i.isLt] at shift
    rw [numChildren_eq]
    omega
  have removed := slot_removeAt [] full i.isLt occupied j.isLt
  rw [List.append_nil, ← slot_take j.isLt, fewer, ← setEmpty_take full occupied, ← fewer,
    slot_take j.isLt] at removed
  have cleared : (b.setEmpty i).mask = b.mask &&& ~~~(1#32 <<< i.val) := rfl
  rw [TriedbBranch.pointer, cleared, slot_congr _ (fun k => getLsbD_clear b.mask i k), removed]
  simp only [index]
  rfl

theorem full_set_empty {b : TriedbBranch} (full : b.Full) {i : Fin 32}
    (occupied : b.mask.getLsbD i.val = true) : (b.setEmpty i).Full := by
  have shift := rank_update_false occupied 32
  rw [if_pos i.isLt] at shift
  have length : rank b.mask.getLsbD 32 ≤ b.ptr.length := full
  have here : rank b.mask.getLsbD i.val < rank b.mask.getLsbD 32 := rank_lt occupied i.isLt
  simp only [TriedbBranch.Full, TriedbBranch.setEmpty, childIndex_eq, numChildren_eq, Packed,
    rank_clear b.mask i le_rfl, List.length_append, List.length_take, List.length_drop,
    List.length_cons]
  omega

section SlotUpdate

variable {b : TriedbBranch}

theorem slot_put_leaf (full : b.Full) (i j : Fin 32) (p : ℕ) :
    ((b.setChildPointer i p).setLeaf i).slot j = if j = i then .leaf p else b.slot j := by
  have index : (j.val = i.val) = (j = i) := by rw [Fin.ext_iff]
  rw [slot_eq, slot_eq]
  change (if (b.mask ||| (1#32 <<< i.val)).getLsbD j.val = false then _ else
    if (b.leaf ||| (1#32 <<< i.val)).getLsbD j.val then
      Slot.leaf (((b.setChildPointer i p).pointer j).getD 0)
    else Slot.branch (((b.setChildPointer i p).pointer j).getD 0)) = _
  rw [getLsbD_set, getLsbD_set, pointer_set_child_pointer full, Function.update_apply,
    Function.update_apply]
  simp only [index]
  split <;> simp_all

theorem slot_put_branch (full : b.Full) (i j : Fin 32) (p : ℕ) :
    ((b.setChildPointer i p).setBranch i).slot j = if j = i then .branch p else b.slot j := by
  have index : (j.val = i.val) = (j = i) := by rw [Fin.ext_iff]
  rw [slot_eq, slot_eq]
  change (if (b.mask ||| (1#32 <<< i.val)).getLsbD j.val = false then _ else
    if (b.leaf &&& ~~~(1#32 <<< i.val)).getLsbD j.val then
      Slot.leaf (((b.setChildPointer i p).pointer j).getD 0)
    else Slot.branch (((b.setChildPointer i p).pointer j).getD 0)) = _
  rw [getLsbD_set, getLsbD_clear, pointer_set_child_pointer full, Function.update_apply,
    Function.update_apply]
  simp only [index]
  split <;> simp_all

theorem slot_repoint_branch (full : b.Full) {i : Fin 32} (off : b.leaf.getLsbD i.val = false)
    (j : Fin 32) (p : ℕ) :
    (b.setChildPointer i p).slot j = if j = i then .branch p else b.slot j := by
  have index : (j.val = i.val) = (j = i) := by rw [Fin.ext_iff]
  rw [slot_eq, slot_eq]
  change (if (b.mask ||| (1#32 <<< i.val)).getLsbD j.val = false then _ else
    if b.leaf.getLsbD j.val then
      Slot.leaf (((b.setChildPointer i p).pointer j).getD 0)
    else Slot.branch (((b.setChildPointer i p).pointer j).getD 0)) = _
  rw [getLsbD_set, pointer_set_child_pointer full, Function.update_apply]
  simp only [index]
  split
  · simp_all
  · by_cases same : j = i <;> simp_all

theorem slot_set_empty (full : b.Full) {i : Fin 32} (occupied : b.mask.getLsbD i.val = true)
    (j : Fin 32) : (b.setEmpty i).slot j = if j = i then .empty else b.slot j := by
  have index : (j.val = i.val) = (j = i) := by rw [Fin.ext_iff]
  rw [slot_eq, slot_eq]
  change (if (b.mask &&& ~~~(1#32 <<< i.val)).getLsbD j.val = false then _ else
    if (b.leaf &&& ~~~(1#32 <<< i.val)).getLsbD j.val then
      Slot.leaf (((b.setEmpty i).pointer j).getD 0)
    else Slot.branch (((b.setEmpty i).pointer j).getD 0)) = _
  rw [getLsbD_clear, getLsbD_clear, pointer_set_empty full occupied, Function.update_apply,
    Function.update_apply]
  simp only [index]
  by_cases same : j = i <;> simp_all

theorem full_set_mask (m : BitVec 32) : (b.setMask m).Full := packed_gather _ _ _

theorem pointer_set_mask (m : BitVec 32) (i : Fin 32) :
    (b.setMask m).pointer i = if m.getLsbD i.val then
      some (if b.isEmpty i then 0 else b.getChildPointer i) else none := by
  have := slot_gather m.getLsbD (fun i => if b.isEmpty (Fin.ofNat 32 i) then 0
    else b.getChildPointer (Fin.ofNat 32 i)) i.isLt
  rwa [Fin.ofNat_val_eq_self] at this

theorem slot_set_mask (m : BitVec 32) (i : Fin 32) :
    (b.setMask m).slot i = if m.getLsbD i.val = false then .empty
      else if b.mask.getLsbD i.val then b.slot i
      else if b.leaf.getLsbD i.val then .leaf 0 else .branch 0 := by
  rw [slot_eq, pointer_set_mask]
  change (if m.getLsbD i.val = false then _ else if b.leaf.getLsbD i.val then _ else _) = _
  cases bit : m.getLsbD i.val with
  | false => rfl
  | true =>
      unfold TriedbBranch.slot
      rw [isEmpty_eq, isLeaf_eq]
      cases occupied : b.mask.getLsbD i.val <;> cases leaf : b.leaf.getLsbD i.val <;> simp

end SlotUpdate

@[simp] theorem set_hash_slot (b : TriedbBranch) (h : Bytes) (i : Fin 32) :
    (b.setHash h).slot i = b.slot i := rfl

@[simp] theorem add_num_entries_slot (b : TriedbBranch) (dn : UInt64) (i : Fin 32) :
    (b.addNumEntries dn).slot i = b.slot i := rfl

@[simp] theorem sub_num_entries_slot (b : TriedbBranch) (dn : UInt64) (i : Fin 32) :
    (b.subNumEntries dn).slot i = b.slot i := rfl

theorem slot_fresh (d : ℕ) (i : Fin 32) :
    (({} : TriedbBranch).setDepth d).slot i = .empty := by
  rw [slot_eq_empty_iff]
  simp [TriedbBranch.setDepth]

theorem of_slot_branch {b : TriedbBranch} {i : Fin 32} {p : ℕ} (here : b.slot i = .branch p) :
    b.mask.getLsbD i.val = true ∧ b.leaf.getLsbD i.val = false ∧ b.getChildPointer i = p := by
  unfold TriedbBranch.slot at here
  simp only [isEmpty_eq, isLeaf_eq] at here
  cases occupied : b.mask.getLsbD i.val <;> cases bit : b.leaf.getLsbD i.val <;> simp_all

theorem of_slot_leaf {b : TriedbBranch} {i : Fin 32} {p : ℕ} (here : b.slot i = .leaf p) :
    b.mask.getLsbD i.val = true ∧ b.leaf.getLsbD i.val = true ∧ b.getChildPointer i = p := by
  unfold TriedbBranch.slot at here
  simp only [isEmpty_eq, isLeaf_eq] at here
  cases occupied : b.mask.getLsbD i.val <;> cases bit : b.leaf.getLsbD i.val <;> simp_all

end Epilog.Db.Branch
