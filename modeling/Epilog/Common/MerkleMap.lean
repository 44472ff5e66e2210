/- Module: Epilog/Common/MerkleMap
   source: src/src/common/merkle_trie.hpp
   digest: The trie in memory stands for a compact radix tree and keeps its hash. -/

import Epilog.Common.MerkleTrie
import Epilog.Lib.CompactTree
import Epilog.Lib.Fuel

set_option autoImplicit false

namespace Epilog.Common.MerkleMap

open Epilog.Lib.PackedSlots Epilog.Lib.DigitTree Epilog.Lib.DigitTree.Tree Epilog.Lib.TreeShape
open Epilog.Lib.CompactTree Epilog.Common.Bits Epilog.Common.MerkleTrie
open Epilog.Db.Branch (Bytes count count_below count_above and_one_beq getLsbD_set getLsbD_clear
  getLsbD_one_shift rank_set rank_clear)

section Cells

variable {P : Type} {b b' : BranchOf P} {i : Fin 32} {p : P}

@[simp] theorem isEmpty_eq (b : BranchOf P) (i : Fin 32) :
    b.isEmpty i = !b.mask.getLsbD i.val :=
  and_one_beq b.mask i.val

@[simp] theorem isLeaf_eq (b : BranchOf P) (i : Fin 32) : b.isLeaf i = b.leaf.getLsbD i.val := by
  rw [BranchOf.isLeaf, bne, and_one_beq, Bool.not_not]

theorem getChildIndex_eq (b : BranchOf P) (i : Fin 32) :
    b.getChildIndex i = rank b.mask.getLsbD i.val :=
  count_below b.mask i

theorem cell_eq (used : b.mask.getLsbD i.val = true) : b.cell i = b.entry i := by
  rw [BranchOf.cell, BranchOf.entry, slot, if_pos used, getChildIndex_eq]

/-- `b'` differs from `b` in the slot `i` alone. -/
structure Changed (b b' : BranchOf P) (i : Fin 32) (used isLeaf : Bool) (p : Option P) : Prop where
  full : b'.Full
  mask : ∀ j : Fin 32, b'.mask.getLsbD j.val = if j = i then used else b.mask.getLsbD j.val
  leaf : ∀ j : Fin 32, b'.leaf.getLsbD j.val = if j = i then isLeaf else b.leaf.getLsbD j.val
  entry : ∀ j : Fin 32, b'.entry j = if j = i then p else b.entry j

theorem bit_set (m : BitVec 32) (i j : Fin 32) : (m ||| (1#32 <<< i.val)).getLsbD j.val =
    if j = i then true else m.getLsbD j.val := by
  rw [getLsbD_set, Function.update_apply]
  simp only [Fin.ext_iff]

theorem bit_clear (m : BitVec 32) (i j : Fin 32) : (m &&& ~~~(1#32 <<< i.val)).getLsbD j.val =
    if j = i then false else m.getLsbD j.val := by
  rw [getLsbD_clear, Function.update_apply]
  simp only [Fin.ext_iff]

theorem slot_congr {α : Type} {used used' : ℕ → Bool} (packed : List α) {j : Fin 32}
    (same : ∀ k : Fin 32, used k.val = used' k.val) :
    slot used packed j.val = slot used' packed j.val :=
  Epilog.Db.Branch.slot_congr packed same

theorem entry_setCell (full : b.Full) (used : b.mask.getLsbD i.val = true) (j : Fin 32) :
    (b.setCell i p).entry j = if j = i then some p else b.entry j := by
  have written := slot_set (x := some p) (j := j.val) full i.isLt used
  rw [BranchOf.entry, BranchOf.setCell, getChildIndex_eq, written]
  simp only [← Fin.ext_iff]
  split <;> rfl

theorem full_setCell (full : b.Full) : (b.setCell i p).Full := packed_set full

theorem bit_same {m : BitVec 32} (used : m.getLsbD i.val = true) (k : Fin 32) :
    (m ||| (1#32 <<< i.val)).getLsbD k.val = m.getLsbD k.val := by
  rw [bit_set]
  split
  · rename_i same
    rw [same, used]
  · rfl

theorem full_mask (full : b.Full) (used : b.mask.getLsbD i.val = true) (leaf : BitVec 32) :
    ({ b with mask := b.mask ||| (1#32 <<< i.val), leaf } : BranchOf P).Full := by
  unfold BranchOf.Full Packed at full ⊢
  rwa [rank_congr fun k less => bit_same used ⟨k, less⟩]

theorem entry_set (full : b.Full) (used : b.mask.getLsbD i.val = true) (leaf : BitVec 32)
    (j : Fin 32) :
    ({ b with mask := b.mask ||| (1#32 <<< i.val), leaf }.setCell i p).entry j =
      if j = i then some p else b.entry j := by
  rw [entry_setCell (full_mask full used leaf) ((bit_same used i).trans used)]
  simp only [BranchOf.entry, slot_congr b.data (bit_same used)]

theorem changed_setLeaf (full : b.Full) (used : b.mask.getLsbD i.val = true) :
    Changed b (b.setLeaf i p) i true true (some p) where
  full := full_setCell (full_mask full used _)
  mask := bit_set b.mask i
  leaf := bit_set b.leaf i
  entry := entry_set full used _

theorem changed_setBranch (full : b.Full) (used : b.mask.getLsbD i.val = true) :
    Changed b (b.setBranch i p) i true false (some p) where
  full := full_setCell (full_mask full used _)
  mask := bit_set b.mask i
  leaf := bit_clear b.leaf i
  entry := entry_set full used _

theorem changed_insert (full : b.Full) (free : b.mask.getLsbD i.val = false) :
    Changed b ((b.reallocateInsert i).setLeaf i p) i true true (some p) := by
  have cells : (b.reallocateInsert i).data = insertAt b.mask.getLsbD b.data 32 i.val none := by
    have above := count_above b.mask i
    rw [rank_succ, free] at above
    simp only [BranchOf.reallocateInsert, count_below, insertAt]
    congr 3
    simp only [Bool.false_eq_true, if_false] at above
    omega
  have bits : ∀ k : Fin 32, (b.mask ||| (1#32 <<< i.val)).getLsbD k.val =
      Function.update b.mask.getLsbD i.val true k.val := fun k => getLsbD_set b.mask i k
  have full' : ({ b.reallocateInsert i with
      mask := b.mask ||| (1#32 <<< i.val)
      leaf := b.leaf ||| (1#32 <<< i.val) } : BranchOf P).Full := by
    have grown := packed_insertAt (x := (none : Option P)) full i.isLt free
    unfold BranchOf.Full
    rw [cells]
    unfold Packed at grown ⊢
    rwa [rank_congr fun k less => bits ⟨k, less⟩]
  refine ⟨full_setCell full', bit_set b.mask i, bit_set b.leaf i, fun j => ?_⟩
  refine (entry_setCell full' ((bits i).trans (Function.update_self _ _ _)) j).trans ?_
  split
  · rfl
  · rename_i other
    have inserted := slot_insertAt (x := (none : Option P)) full i.isLt free j.isLt
    rw [if_neg (fun same => other (Fin.ext same))] at inserted
    change (slot (b.mask ||| (1#32 <<< i.val)).getLsbD (b.reallocateInsert i).data j.val).join = _
    rw [slot_congr _ bits, cells, inserted, BranchOf.entry]

theorem changed_remove (full : b.Full) (used : b.mask.getLsbD i.val = true) :
    Changed b (b.reallocateRemove i) i false false none := by
  have bits : ∀ k : Fin 32, (b.mask &&& ~~~(1#32 <<< i.val)).getLsbD k.val =
      Function.update b.mask.getLsbD i.val false k.val := fun k => getLsbD_clear b.mask i k
  have above := count_above b.mask i
  have shift := rank_update_false used 32
  have below : rank b.mask.getLsbD i.val < rank b.mask.getLsbD 32 := rank_lt used i.isLt
  rw [rank_succ, if_pos used] at above
  rw [if_pos i.isLt] at shift
  have fewer : rank (Function.update b.mask.getLsbD i.val false) 32 =
      rank b.mask.getLsbD i.val + count ((b.mask >>> i.val) >>> 1) := by
    omega
  have cells : (b.reallocateRemove i).data = (removeAt b.mask.getLsbD b.data i.val).take
      (rank (Function.update b.mask.getLsbD i.val false) 32) := by
    have enough : rank b.mask.getLsbD i.val ≤ b.data.length := le_trans below.le full
    rw [fewer, removeAt, List.eraseIdx_eq_take_drop_succ, List.take_append, List.length_take,
      min_eq_left enough, Nat.add_sub_cancel_left, List.take_take,
      min_eq_right (Nat.le_add_right _ _)]
    simp only [BranchOf.reallocateRemove, count_below]
  have packed : Packed 32 (Function.update b.mask.getLsbD i.val false)
      (removeAt b.mask.getLsbD b.data i.val ++ []) := packed_removeAt full i.isLt used
  rw [List.append_nil] at packed
  refine ⟨?_, bit_clear b.mask i, bit_clear b.leaf i, fun j => ?_⟩
  · have taken := packed_take packed
    unfold Packed at taken
    unfold BranchOf.Full Packed
    rw [cells, show (b.reallocateRemove i).mask = b.mask &&& ~~~(1#32 <<< i.val) from rfl,
      rank_congr fun k less => bits ⟨k, less⟩]
    exact taken
  · have kept := slot_removeAt [] full i.isLt used j.isLt
    rw [List.append_nil] at kept
    have cleared : (b.reallocateRemove i).mask = b.mask &&& ~~~(1#32 <<< i.val) := rfl
    rw [BranchOf.entry, cells, cleared, slot_congr _ bits, slot_take j.isLt, kept]
    simp only [← Fin.ext_iff]
    split <;> rfl

theorem numChildren_eq (b : BranchOf P) : b.numChildren = rank b.mask.getLsbD 32 := rfl

end Cells

section Trees

variable {V : Type} (H : Hashing V) (rehash : Bool)

abbrev Children (V : Type) := Fin 32 → Tree 32 V

/-- What a tree adds to the hash of its parent -/
def treeBytes : Tree 32 V → Bytes
  | .empty => []
  | .leaf k v => writeUint64 (BitVec.ofNat 64 k) ++ H.valueBytes v
  | .branch c => H.blake2b ((List.finRange 32).flatMap fun i => treeBytes (c i))

/-- With hashes maintained, a branch has that of its tree. -/
def Signed (b : Branch V) (c : Children V) : Prop :=
  rehash = true → b.hash = some (treeBytes H (.branch c))

/-- A slot with its two bits and its pointer stands for a tree. -/
def Stands : Tree 32 V → Bool → Bool → Option (Pointer V) → Prop
  | .empty, used, isLeaf, _ => used = false ∧ isLeaf = false
  | .leaf k v, used, isLeaf, p => used = true ∧ isLeaf = true ∧
      ∃ l : MerkleTrieLeaf V, p = some (.leaf l) ∧ l.key.toNat = k ∧ l.value = v
  | .branch c, used, isLeaf, p => used = true ∧ isLeaf = false ∧
      ∃ b : Branch V, p = some (.branch b) ∧
        (rehash = true → b.hash = some (treeBytes H (.branch c))) ∧ b.Full ∧
        ∀ i, Stands (c i) (b.mask.getLsbD i.val) (b.leaf.getLsbD i.val) (b.entry i)

/-- A branch stands for the trees below its slots. -/
def Holds (b : Branch V) (c : Children V) : Prop :=
  b.Full ∧ ∀ i : Fin 32,
    Stands H rehash (c i) (b.mask.getLsbD i.val) (b.leaf.getLsbD i.val) (b.entry i)

variable {H rehash} {b b' : Branch V} {c : Children V} {i : Fin 32}

theorem stands_branch {c : Children V} (holds : Holds H rehash b c) (hashed : Signed H rehash b c) :
    Stands H rehash (.branch c) true false (some (.branch b)) :=
  ⟨rfl, rfl, b, rfl, hashed, holds⟩

theorem Holds.changed {t : Tree 32 V} {used isLeaf : Bool} {p : Option (Pointer V)}
    (holds : Holds H rehash b c) (changed : Changed b b' i used isLeaf p)
    (stands : Stands H rehash t used isLeaf p) : Holds H rehash b' (Function.update c i t) := by
  refine ⟨changed.full, fun j => ?_⟩
  rw [changed.mask, changed.leaf, changed.entry, Function.update_apply]
  split
  · exact stands
  · exact holds.2 j

theorem Holds.empty_iff (holds : Holds H rehash b c) (i : Fin 32) :
    c i = .empty ↔ b.mask.getLsbD i.val = false := by
  have here := holds.2 i
  cases slot : c i with
  | empty =>
    rw [slot] at here
    exact iff_of_true rfl here.1
  | leaf k v =>
    rw [slot] at here
    rw [here.1]
    exact iff_of_false nofun nofun
  | branch c' =>
    rw [slot] at here
    rw [here.1]
    exact iff_of_false nofun nofun

theorem Holds.leaf_of_bits (holds : Holds H rehash b c) (used : b.mask.getLsbD i.val = true)
    (bit : b.leaf.getLsbD i.val = true) :
    ∃ l, getLeaf b i = some l ∧ c i = .leaf l.key.toNat l.value := by
  have here := holds.2 i
  rw [used, bit] at here
  cases slot : c i with
  | empty =>
    rw [slot] at here
    exact absurd here.1 (by decide)
  | leaf k v =>
    rw [slot] at here
    obtain ⟨-, -, l, cell, rfl, rfl⟩ := here
    exact ⟨l, by rw [getLeaf, cell_eq used, cell], rfl⟩
  | branch c' =>
    rw [slot] at here
    exact absurd here.2.1 (by decide)

theorem Holds.branch_of_bits (holds : Holds H rehash b c) (used : b.mask.getLsbD i.val = true)
    (bit : b.leaf.getLsbD i.val = false) :
    ∃ b' c', getBranch b i = some b' ∧ c i = .branch c' ∧ Holds H rehash b' c' ∧
      Signed H rehash b' c' := by
  have here := holds.2 i
  rw [used, bit] at here
  cases slot : c i with
  | empty =>
    rw [slot] at here
    exact absurd here.1 (by decide)
  | leaf k v =>
    rw [slot] at here
    exact absurd here.2.1 (by decide)
  | branch c' =>
    rw [slot] at here
    obtain ⟨-, -, b', cell, hashed, below⟩ := here
    exact ⟨b', c', by rw [getBranch, cell_eq used, cell], rfl, below, hashed⟩

theorem holds_empty {b : Branch V} (mask : b.mask = 0) (leaf : b.leaf = 0) :
    Holds H rehash b fun _ => .empty := by
  have none_used : ∀ k, rank (0#32).getLsbD k = 0 := by
    intro k
    induction k with
    | zero => simp [rank]
    | succ k ih => rw [rank_succ, ih]; simp
  refine ⟨?_, fun i => ?_⟩
  · unfold BranchOf.Full Packed
    rw [mask]
    exact (none_used 32).trans_le (Nat.zero_le _)
  · rw [mask, leaf]
    exact ⟨by simp, by simp⟩

theorem holds_single (i : Fin 32) (l : MerkleTrieLeaf V) :
    Holds H rehash
      { mask := 1#32 <<< i.val, leaf := 1#32 <<< i.val, data := [some (.leaf l)] }
      (Function.update (fun _ => .empty) i (.leaf l.key.toNat l.value)) := by
  have bare : Holds H rehash ({} : Branch V) fun _ => .empty := holds_empty rfl rfl
  have free : ({} : Branch V).mask.getLsbD i.val = false := by
    simp
  have inserted := bare.changed (t := .leaf l.key.toNat l.value)
    (changed_insert (p := Pointer.leaf l) bare.1 free) ⟨rfl, rfl, l, rfl, rfl, rfl⟩
  have same : ((({} : Branch V).reallocateInsert i).setLeaf i (.leaf l)) =
      { mask := 1#32 <<< i.val, leaf := 1#32 <<< i.val, data := [some (.leaf l)] } := by
    have first : (({} : Branch V).reallocateInsert i).data = [none] := by
      simp [BranchOf.reallocateInsert]
    have whole : (0 : BitVec 32) ||| 1#32 <<< i.val = 1#32 <<< i.val := BitVec.zero_or
    have zero : count ((1#32 <<< i.val) &&& ((1#32 <<< i.val) - 1#32)) = 0 := by
      rw [count_below]
      have before : ∀ k : ℕ, k ≤ i.val → rank (1#32 <<< i.val).getLsbD k = 0 := by
        intro k le
        induction k with
        | zero => simp [rank]
        | succ k ih =>
          have off := getLsbD_one_shift i ⟨k, by omega⟩
          rw [rank_succ, ih (by omega), off, decide_eq_false (show ¬ k = i.val by omega)]
          simp
      exact before i.val le_rfl
    rw [BranchOf.setLeaf, BranchOf.setCell, BranchOf.getChildIndex]
    simp only [BranchOf.reallocateInsert] at first ⊢
    rw [first, whole, zero]
    rfl
  rwa [same] at inserted

theorem holds_recomputeHash (holds : Holds H rehash b c) : Holds H rehash (recomputeHash H b) c :=
  holds

theorem flatten_children {used : Fin 32 → Bool} {f : Fin 32 → Bytes}
    (unused : ∀ i, used i = false → f i = []) (l : List (Fin 32)) :
    ((l.filter used).map f).flatten = l.flatMap f := by
  induction l with
  | nil => rfl
  | cons i l ih =>
    rw [List.filter_cons, List.flatMap_cons]
    cases here : used i with
    | false => simp [ih, unused i here]
    | true => simp [ih]

theorem maskLoop_fin (m : BitVec 32) :
    (maskLoop 32 m).map (Fin.ofNat 32) =
      (List.finRange 32).filter fun i : Fin 32 => m.getLsbD i.val := by
  have positions : List.range 32 = (List.finRange 32).map Fin.val := by
    simp
  rw [maskLoop_eq, positions, List.filter_map, List.map_map]
  have back : (Fin.ofNat 32 ∘ Fin.val : Fin 32 → Fin 32) = id := by
    funext i
    exact Fin.ofNat_val_eq_self i
  rw [back, List.map_id]
  rfl

theorem childBytes_eq (holds : Holds H true b c) (used : b.mask.getLsbD i.val = true) :
    childBytes H b i = some (treeBytes H (c i)) := by
  rw [childBytes, isLeaf_eq]
  cases bit : b.leaf.getLsbD i.val with
  | true =>
    obtain ⟨l, read, slot⟩ := holds.leaf_of_bits used bit
    have word : BitVec.ofNat 64 l.key.toNat = l.key.toBitVec :=
      (BitVec.ofNat_toNat 64 l.key.toBitVec).trans (BitVec.setWidth_eq _)
    rw [if_pos rfl, read, slot, treeBytes, word]
    rfl
  | false =>
    obtain ⟨b', c', read, slot, -, hashed⟩ := holds.branch_of_bits used bit
    rw [if_neg Bool.false_ne_true, read, slot]
    exact hashed rfl

theorem recomputeHash_eq (holds : Holds H true b c) :
    (recomputeHash H b).hash = some (treeBytes H (.branch c)) := by
  have parts : ((maskLoop 32 b.mask).mapM fun i => childBytes H b (Fin.ofNat 32 i)) =
      some ((maskLoop 32 b.mask).map fun i => treeBytes H (c (Fin.ofNat 32 i))) := by
    rw [Lib.Fuel.mapM_eq_some, List.forall₂_map_right_iff, List.forall₂_same]
    intro i member
    apply childBytes_eq holds
    rw [maskLoop_eq, List.mem_filter, List.mem_range] at member
    rw [Fin.val_ofNat, Nat.mod_eq_of_lt member.1]
    exact member.2
  have gathered : (maskLoop 32 b.mask).map (fun i => treeBytes H (c (Fin.ofNat 32 i))) =
      ((List.finRange 32).filter fun i : Fin 32 => b.mask.getLsbD i.val).map fun i =>
        treeBytes H (c i) := by
    rw [← maskLoop_fin, List.map_map]
    rfl
  rw [recomputeHash, parts, Option.map_some, gathered, flatten_children, treeBytes]
  intro i unused
  rw [(holds.empty_iff i).2 unused]
  rfl

theorem holds_settle (holds : Holds H rehash b c) :
    Holds H rehash (settle H rehash b) c ∧ Signed H rehash (settle H rehash b) c := by
  cases rehash with
  | false => exact ⟨holds, nofun⟩
  | true => exact ⟨holds_recomputeHash holds, fun _ => recomputeHash_eq holds⟩

theorem subIndex_eq (parts : ℕ) (key : UInt64) : subIndex parts key = digit 32 parts key.toNat := by
  rw [subIndex, digit, Nat.shiftRight_eq_div_pow, Db.Branch.MAX_BRANCH_BITS, Nat.pow_mul]

section Insert

variable (key : UInt64) (value : V)

theorem insertPart_holds {d q : ℕ} (holds : Holds H rehash b c) (fits : (branch c).Fits d q)
    (below : key.toNat / 32 ^ d = q) :
    ∃ b', insertPart H rehash key value d b = some b' ∧
      Holds H rehash b' (add d c key.toNat value) ∧
      Signed H rehash b' (add d c key.toNat value) := by
  induction d generalizing q b c with
  | zero => exact fits.elim
  | succ d ih =>
    have child := fits (digit 32 d key.toNat)
    have here := div_eq_of_digit below
    have shape := holds.empty_iff (digit 32 d key.toNat)
    rw [insertPart]
    simp only [subIndex_eq, isEmpty_eq, isLeaf_eq]
    cases used : b.mask.getLsbD (digit 32 d key.toNat).val with
    | false =>
      have inserted := holds.changed (changed_insert (p := Pointer.leaf ⟨key, value⟩) holds.1 used)
        (t := .leaf key.toNat value) ⟨rfl, rfl, ⟨key, value⟩, rfl, rfl, rfl⟩
      rw [add_empty (shape.2 used)]
      exact ⟨_, if_pos rfl, holds_settle inserted⟩
    | true =>
      rw [if_neg (by decide)]
      cases bit : b.leaf.getLsbD (digit 32 d key.toNat).val with
      | true =>
        obtain ⟨l, read, slot⟩ := holds.leaf_of_bits used bit
        rw [if_pos rfl, read]
        by_cases same : l.key = key
        · rw [add_same (by rw [slot, same])]
          exact ⟨_, if_pos same, holds_settle holds⟩
        · have other : l.key.toNat ≠ key.toNat := fun equal => same (UInt64.toNat_inj.1 equal)
          rw [slot] at child
          cases d with
          | zero =>
            -- Two keys with the same parts are the same.
            simp only [Fits, pow_zero, Nat.div_one] at child here
            exact absurd (child.trans here.symm) other
          | succ d =>
            obtain ⟨b', ran, below', signed⟩ := ih (holds_single (digit 32 d l.key.toNat) l)
              (fits_single child) here
            have settled := (holds_settle below').1
            rw [add_other slot other]
            refine ⟨_, ?_, holds_settle (holds.changed (changed_setBranch holds.1 used)
              (stands_branch settled (holds_settle below').2))⟩
            refine (if_neg same).trans ?_
            simp only [Nat.add_sub_cancel]
            rw [ran]
            rfl
      | false =>
        obtain ⟨b', c', read, slot, below', -⟩ := holds.branch_of_bits used bit
        rw [slot] at child
        obtain ⟨b'', ran, holds'', signed⟩ := ih below' child here
        rw [if_neg Bool.false_ne_true, read, add_branch slot]
        refine ⟨_, ?_, holds_settle (holds.changed (changed_setBranch holds.1 used)
          (stands_branch holds'' signed))⟩
        change (insertPart H rehash key value d b').bind _ = _
        rw [ran]
        rfl

theorem findPart_eq {d q : ℕ} (holds : Holds H rehash b c) (fits : (branch c).Fits d q) :
    ∃ l, findPart key d b = some l ∧
      l.map (fun l => l.value) = (branch c).lookup d key.toNat := by
  induction d generalizing q b c with
  | zero => exact fits.elim
  | succ d ih =>
    have child := fits (digit 32 d key.toNat)
    have shape := holds.empty_iff (digit 32 d key.toNat)
    rw [findPart, lookup_branch]
    simp only [subIndex_eq, isEmpty_eq, isLeaf_eq]
    cases used : b.mask.getLsbD (digit 32 d key.toNat).val with
    | false =>
      rw [shape.2 used]
      exact ⟨none, if_pos rfl, rfl⟩
    | true =>
      rw [if_neg (by decide)]
      cases bit : b.leaf.getLsbD (digit 32 d key.toNat).val with
      | true =>
        obtain ⟨l, read, slot⟩ := holds.leaf_of_bits used bit
        rw [if_pos rfl, read, slot, lookup_leaf]
        refine ⟨_, rfl, ?_⟩
        by_cases same : l.key = key
        · rw [if_pos same, if_pos (congrArg UInt64.toNat same).symm]
          rfl
        · rw [if_neg same, if_neg fun equal => same (UInt64.toNat_inj.1 equal).symm]
          rfl
      | false =>
        obtain ⟨b', c', read, slot, below', -⟩ := holds.branch_of_bits used bit
        rw [slot] at child
        rw [if_neg Bool.false_ne_true, read, slot]
        exact ih below' child

end Insert

section Remove

theorem Holds.numChildren_eq_zero (holds : Holds H rehash b c) :
    b.numChildren = 0 ↔ ∀ i, c i = .empty := by
  rw [numChildren_eq, rank_eq_zero_iff]
  constructor
  · intro unused i
    exact (holds.empty_iff i).2 (unused i i.isLt)
  · intro childless j inside
    exact (holds.empty_iff ⟨j, inside⟩).1 (childless ⟨j, inside⟩)

theorem Holds.numChildren_eq_one (holds : Holds H rehash b c) (occupied : c i ≠ .empty) :
    b.numChildren = 1 ↔ ∀ j ≠ i, c j = .empty := by
  have used : b.mask.getLsbD i.val = true := by
    rw [← Bool.not_eq_false]
    exact fun unused => occupied ((holds.empty_iff i).2 unused)
  rw [numChildren_eq, rank_eq_one_iff used i.isLt]
  constructor
  · intro alone j other
    exact (holds.empty_iff j).2 (alone j j.isLt fun same => other (Fin.ext same))
  · intro alone j inside other
    have childless := alone ⟨j, inside⟩ fun same => other (congrArg Fin.val same)
    exact (holds.empty_iff ⟨j, inside⟩).1 childless

/-- What `remove_part` leaves of a branch: nothing, or a branch with the hash of what is left -/
def Remains (H : Hashing V) (rehash : Bool) (parent : Option (Branch V)) (c : Children V) : Prop :=
  (parent = none ∧ ∀ i, c i = .empty) ∨
    ∃ b, parent = some b ∧ Holds H rehash b c ∧ Signed H rehash b c ∧ ∃ i, c i ≠ .empty

theorem removed_remains (holds : Holds H rehash b c) :
    ∃ parent, removed H rehash b = (true, parent) ∧ Remains H rehash parent c := by
  by_cases childless : b.numChildren = 0
  · exact ⟨none, by rw [removed, if_pos childless],
      .inl ⟨rfl, holds.numChildren_eq_zero.1 childless⟩⟩
  · obtain ⟨settled, signed⟩ := holds_settle holds
    refine ⟨_, by rw [removed, if_neg childless], .inr ⟨_, rfl, settled, signed, ?_⟩⟩
    by_contra none_left
    push Not at none_left
    exact childless (holds.numChildren_eq_zero.2 none_left)

theorem replaceChild_holds {child : Branch V} {c' : Children V} (holds : Holds H rehash b c)
    (used : b.mask.getLsbD i.val = true) (below : Holds H rehash child c')
    (signed : Signed H rehash child c') (compact : ∀ i, Compact (c' i))
    (occupied : ∃ i, c' i ≠ .empty) :
    ∃ b', replaceChild b i child = some b' ∧
      Holds H rehash b' (Function.update c i (shrink c')) := by
  obtain ⟨j, some_left⟩ := occupied
  have nonzero : child.mask ≠ 0 := by
    intro zero
    apply some_left
    rw [below.empty_iff, zero]
    simp
  have low := lsb32_lowest nonzero
  obtain ⟨o, pos⟩ : ∃ o : Fin 32, o = Fin.ofNat 32 (lsb32 child.mask) := ⟨_, rfl⟩
  have val : o.val = lsb32 child.mask := by
    rw [pos, Fin.val_ofNat, Nat.mod_eq_of_lt low.lt]
  have set : child.mask.getLsbD o.val = true := val ▸ low.1
  have first : c' o ≠ .empty := by
    rw [Ne, below.empty_iff, set]
    decide
  have kept : (shrink c' = .branch c') → ∃ b', some (b.setBranch i (.branch child)) = some b' ∧
      Holds H rehash b' (Function.update c i (shrink c')) := by
    intro stays
    rw [stays]
    exact ⟨_, rfl, holds.changed (changed_setBranch holds.1 used) (stands_branch below signed)⟩
  unfold replaceChild
  simp only [← pos, isLeaf_eq]
  by_cases one : child.numChildren = 1
  · have alone := (below.numChildren_eq_one first).1 one
    cases bit : child.leaf.getLsbD o.val with
    | true =>
      obtain ⟨l, read, slot⟩ := below.leaf_of_bits set bit
      rw [if_pos ⟨one, rfl⟩, read, shrink_single slot alone]
      exact ⟨_, rfl, holds.changed (changed_setLeaf holds.1 used) ⟨rfl, rfl, l, rfl, rfl, rfl⟩⟩
    | false =>
      obtain ⟨b', c'', -, slot, -⟩ := below.branch_of_bits set bit
      rw [if_neg (by simp)]
      exact kept (shrink_branch compact slot)
  · rw [if_neg fun both => one both.1]
    have sibling : ∃ j, j ≠ o ∧ c' j ≠ .empty := by
      by_contra none_else
      push Not at none_else
      exact one ((below.numChildren_eq_one first).2 none_else)
    obtain ⟨j, other, also⟩ := sibling
    exact kept (shrink_siblings compact other first also)

theorem removePart_holds (key : UInt64) {d q : ℕ} (holds : Holds H rehash b c)
    (compact : ∀ i, Compact (c i)) (fits : (branch c).Fits d q) :
    (removePart H rehash key d b = some (false, some b) ∧ remove d c key.toNat = c) ∨
    ∃ parent, removePart H rehash key d b = some (true, parent) ∧
      Remains H rehash parent (remove d c key.toNat) := by
  induction d generalizing q b c with
  | zero => exact fits.elim
  | succ d ih =>
    have child := fits (digit 32 d key.toNat)
    have old := compact (digit 32 d key.toNat)
    have shape := holds.empty_iff (digit 32 d key.toNat)
    rw [removePart]
    simp only [subIndex_eq, isEmpty_eq, isLeaf_eq]
    cases used : b.mask.getLsbD (digit 32 d key.toNat).val with
    | false =>
      rw [remove, shape.2 used]
      exact .inl ⟨if_pos rfl, rfl⟩
    | true =>
      rw [if_neg (by decide)]
      cases bit : b.leaf.getLsbD (digit 32 d key.toNat).val with
      | true =>
        obtain ⟨l, read, slot⟩ := holds.leaf_of_bits used bit
        rw [if_pos rfl, read, remove, slot]
        by_cases same : l.key = key
        · have emptied := holds.changed (changed_remove holds.1 used) (t := .empty) ⟨rfl, rfl⟩
          obtain ⟨parent, ran, remains⟩ := removed_remains emptied
          refine .inr ⟨parent, ?_, ?_⟩
          · exact congrArg some ((if_pos same).trans ran)
          · dsimp only
            rwa [if_pos (congrArg UInt64.toNat same)]
        · refine .inl ⟨congrArg some (if_neg same), ?_⟩
          exact if_neg fun equal => same (UInt64.toNat_inj.1 equal)
      | false =>
        obtain ⟨b', c', read, slot, below, -⟩ := holds.branch_of_bits used bit
        rw [slot] at child old
        rw [if_neg Bool.false_ne_true, read, remove_branch slot]
        rcases ih below old.2 child with ⟨ran, same⟩ | ⟨parent, ran, remains⟩
        · -- Nothing was removed below.
          refine .inl ⟨?_, ?_⟩
          · change (removePart H rehash key d b').bind _ = _
            rw [ran]
            rfl
          · rw [same, shrink_of_two_le old.1, ← slot, Function.update_eq_self]
        · have resume : ∀ k : Bool × Option (Branch V) → Option (Bool × Option (Branch V)),
              (removePart H rehash key d b').bind k = k (true, parent) := by
            intro k
            rw [ran]
            rfl
          rcases remains with ⟨rfl, childless⟩ | ⟨child', rfl, below', signed, occupied⟩
          · have emptied := holds.changed (changed_remove holds.1 used) (t := .empty) ⟨rfl, rfl⟩
            obtain ⟨parent, ended, remains⟩ := removed_remains emptied
            rw [shrink_childless childless]
            exact .inr ⟨parent, (resume _).trans (congrArg some ended), remains⟩
          · have compact' : ∀ i, Compact (remove d c' key.toNat i) := compact_remove old.2
            obtain ⟨b'', replaced, holds'⟩ :=
              replaceChild_holds holds used below' signed compact' occupied
            obtain ⟨parent, ended, remains⟩ := removed_remains holds'
            refine .inr ⟨parent, (resume _).trans ?_, remains⟩
            change Option.map _ (replaceChild b _ child') = _
            rw [replaced, Option.map_some, ended]

end Remove

section Tries

variable (H rehash)

/-- The hash of a trie, which is that of `new_root` while it is empty -/
def rootHash (c : Children V) : Bytes :=
  if ∀ i, (c i).isEmpty then zeroHash else treeBytes H (.branch c)

/-- A trie stands for the tree with these children. -/
structure Represents (t : MerkleTrieBase V) (c : Children V) : Prop where
  mode : t.autoRehash = rehash
  holds : Holds H rehash t.root c
  compact : ∀ i, Compact (c i)
  fits : (branch c).Fits PARTS 0
  hashed : (rehash = true ∨ ∀ i, c i = .empty) → t.root.hash = some (rootHash H c)
  clean : rehash = true → t.dirty = false

variable {H rehash} {t : MerkleTrieBase V}

theorem rootHash_childless (childless : ∀ i, c i = .empty) : rootHash H c = zeroHash :=
  if_pos fun i => (isEmpty_iff _).2 (childless i)

theorem rootHash_occupied (occupied : ∃ i, c i ≠ .empty) :
    rootHash H c = treeBytes H (.branch c) := by
  obtain ⟨i, some_left⟩ := occupied
  exact if_neg fun childless => some_left ((isEmpty_iff _).1 (childless i))

theorem represents_new (H : Hashing V) (rehash : Bool) :
    Represents H rehash ({ autoRehash := rehash } : MerkleTrieBase V) fun _ => .empty where
  mode := rfl
  holds := holds_empty rfl rfl
  compact _ := trivial
  fits _ := trivial
  hashed _ := congrArg some (rootHash_childless fun _ => rfl).symm
  clean _ := rfl

theorem occupied_of_lookup {d key : ℕ} {v : V} (found : (branch c).lookup d key = some v) :
    ∃ i, c i ≠ .empty := by
  cases d with
  | zero => cases found
  | succ d =>
    refine ⟨digit 32 d key, fun slot => ?_⟩
    rw [lookup_branch, slot] at found
    cases found

theorem Represents.insert (represents : Represents H rehash t c) {key : UInt64}
    (inside : key.toNat < 2 ^ 60) (value : V) : ∃ t', t.insert H key value = some t' ∧
      Represents H rehash t' (add PARTS c key.toNat value) := by
  obtain ⟨mode, holds, compact, fits, hashed, clean⟩ := represents
  have below : key.toNat / 32 ^ PARTS = 0 := Nat.div_eq_of_lt inside
  obtain ⟨root, ran, holds', signed⟩ := insertPart_holds key value holds fits below
  have found : (branch (add PARTS c key.toNat value)).lookup PARTS key.toNat = some _ :=
    (lookup_add fits below _).trans (if_pos rfl)
  have occupied := occupied_of_lookup found
  refine ⟨{ t with root, dirty := t.dirty || !t.autoRehash }, ?_, mode, holds',
    compact_add compact fits below, fits_add fits below, ?_, fun on => ?_⟩
  · rw [MerkleTrieBase.insert, mode, ran]
    rfl
  · rintro (on | childless)
    · rw [rootHash_occupied occupied]
      exact signed on
    · obtain ⟨i, some_left⟩ := occupied
      exact absurd (childless i) some_left
  · simp only [mode, on, clean on, Bool.not_true, Bool.or_false]

theorem Represents.find (represents : Represents H rehash t c) (key : UInt64) :
    t.find key = some ((branch c).lookup PARTS key.toNat) := by
  obtain ⟨l, found, value⟩ := findPart_eq key represents.holds represents.fits
  rw [MerkleTrieBase.find, found, ← value]
  rfl

theorem Represents.remove (represents : Represents H rehash t c) (key : UInt64) :
    ∃ t', t.remove H key = some t' ∧
      Represents H rehash t' (Lib.CompactTree.remove PARTS c key.toNat) := by
  obtain ⟨mode, holds, compact, fits, hashed, clean⟩ := represents
  have clean' : rehash = true → (t.dirty || !rehash) = false := by
    intro on
    rw [on, clean on]
    rfl
  rw [MerkleTrieBase.remove, mode]
  rcases removePart_holds key holds compact fits with ⟨ran, same⟩ | ⟨parent, ran, remains⟩
  · rw [ran, same]
    exact ⟨_, rfl, rfl, holds, compact, fits, hashed, clean'⟩
  · have compact' : ∀ i, Compact (Lib.CompactTree.remove PARTS c key.toNat i) :=
      compact_remove compact
    rw [ran]
    rcases remains with ⟨rfl, childless⟩ | ⟨root, rfl, holds', signed, occupied⟩
    · refine ⟨_, rfl, rfl, ?_, compact', fits_remove fits, fun _ => ?_, clean'⟩
      · rw [funext childless]
        exact holds_empty rfl rfl
      · exact congrArg some (rootHash_childless childless).symm
    · refine ⟨_, rfl, rfl, holds', compact', fits_remove fits, ?_, clean'⟩
      rintro (on | childless)
      · rw [rootHash_occupied occupied]
        exact signed on
      · obtain ⟨i, some_left⟩ := occupied
        exact absurd (childless i) some_left

end Tries

end Trees

end Epilog.Common.MerkleMap
