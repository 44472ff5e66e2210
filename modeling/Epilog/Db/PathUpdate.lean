/- Module: Epilog/Db/PathUpdate
   source: src/src/db/triedb.cpp (update_part, remove_part, growth in insert_or_update)
   digest: The copy-on-write path operations refine put, erase and growth of digit trees. -/

import Epilog.Db.Representation

set_option autoImplicit false

namespace Epilog.Db.PathUpdate

open Epilog.Lib.DigitTree Epilog.Common.Bits Epilog.Db.Branch Epilog.Db.Store
open Epilog.Db.Representation

/-- Depths that occur: thirteen digits of five bits cover a 64-bit key. -/
def MAX_DEPTH : ℕ := 13

private theorem pow_digits (d : ℕ) : (32 : ℕ) ^ d = 2 ^ (d * 5) := by
  rw [Nat.mul_comm, pow_mul]
  rfl

theorem subIndex_eq {d : ℕ} (shallow : d + 1 ≤ MAX_DEPTH) (key : UInt64) :
    subIndex (d + 1) key = digit 32 d key.toNat := by
  have small : d * 5 < 64 := by
    simp only [MAX_DEPTH] at shallow
    omega
  apply Fin.ext
  simp only [subIndex, Nat.add_sub_cancel, MAX_BRANCH_BITS, Fin.val_ofNat, UInt64.toNat_and,
    UInt64.toNat_shiftRight, UInt64.toNat_ofNat', digit_val, pow_digits]
  rw [Nat.mod_eq_of_lt (by omega : d * 5 < 2 ^ 64), Nat.mod_eq_of_lt small,
    Nat.shiftRight_eq_div_pow, show UInt64.toNat 31 = 2 ^ 5 - 1 by rfl,
    Nat.and_two_pow_sub_one_eq_mod, Nat.mod_mod]

theorem computeMaxKeyBits_le {key : UInt64} {d : ℕ} (pos : 1 ≤ d) :
    computeMaxKeyBits key ≤ d * MAX_BRANCH_BITS ↔ key.toNat / 32 ^ d = 0 := by
  have toNat_eq : key.toBitVec.toNat = key.toNat := rfl
  rw [Nat.div_eq_zero_iff_lt (Nat.pow_pos (by omega)), pow_digits]
  simp only [computeMaxKeyBits, MAX_BRANCH_BITS]
  by_cases zero : key.toBitVec = 0
  · rw [zero, msb64_zero]
    have : key.toNat = 0 := by rw [← toNat_eq, zero]; rfl
    rw [this]
    simp
    omega
  · rw [msb64_eq_log2 zero, toNat_eq]
    have nonzero : key.toNat ≠ 0 := fun none =>
      zero (BitVec.eq_of_toNat_eq (by rw [toNat_eq, none]; rfl))
    rw [← Nat.log2_lt nonzero]
    omega

theorem computeMaxKeyBits_le_max (key : UInt64) : computeMaxKeyBits key ≤ MAX_DEPTH * 5 := by
  have small := key.toNat_lt
  exact (computeMaxKeyBits_le (by decide : 1 ≤ MAX_DEPTH)).mpr
    (Nat.div_eq_of_lt (lt_of_lt_of_le small (by decide)))

/-- The record of the leaf stays below the size limit. -/
def Storable (P : TriedbParams) (data : Bytes) : Prop :=
  4 + 8 + 1 + (if P.useHashing then 32 else 0) + data.length < LEAF_MAX_SIZE_IN_BYTES

theorem storable_iff (P : TriedbParams) (key : UInt64) (data : Bytes) :
    Storable P data ↔ leafSerializationSize (newLeaf P key data) < LEAF_MAX_SIZE_IN_BYTES := by
  simp only [Storable, leafSerializationSize, newLeaf]
  split
  · simp [leafHasher, P.blake2b_length]
  · simp

@[simp] theorem newLeaf_key (P : TriedbParams) (key : UInt64) (data : Bytes) :
    (newLeaf P key data).key = key := by
  simp only [newLeaf]
  split <;> rfl

@[simp] theorem newLeaf_customData (P : TriedbParams) (key : UInt64) (data : Bytes) :
    (newLeaf P key data).customData = data := by
  simp only [newLeaf]
  split <;> rfl

section Slots

variable {s : Triedb} {d : ℕ} {b : TriedbBranch} {c : Children}

theorem Represents.copy (rep : Represents s d b c) : Represents s d b.copy c := by
  cases d with
  | zero => exact rep.elim
  | succ d => exact ⟨rep.1, copy_full rep.2.1, fun i => slot_copy b i ▸ rep.2.2 i⟩

theorem Represents.leaf_slot (rep : Represents s (d + 1) b c) (i : Fin 32) {p : ℕ}
    {l : TriedbLeaf} (stored : s.nodes p = some (.leaf l)) :
    Represents s (d + 1) ((b.setChildPointer i p).setLeaf i)
      (Function.update c i (.leaf l.key.toNat l.customData)) :=
  rep.change rfl (full_set_child_pointer rep.2.1 i p) (fun j => slot_put_leaf rep.2.1 i j p)
    (by exact ⟨l, stored, rfl⟩)

theorem Represents.branch_slot (rep : Represents s (d + 1) b c) (i : Fin 32) {p : ℕ}
    {b' : TriedbBranch} {c' : Children} (stored : s.nodes p = some (.branch b'))
    (below : Represents s d b' c') :
    Represents s (d + 1) ((b.setChildPointer i p).setBranch i)
      (Function.update c i (.branch c')) :=
  rep.change rfl (full_set_child_pointer rep.2.1 i p) (fun j => slot_put_branch rep.2.1 i j p)
    (by exact ⟨b', c', stored, rfl, below⟩)

theorem Represents.repoint_slot (rep : Represents s (d + 1) b c) {i : Fin 32}
    (off : b.leaf.getLsbD i.val = false) {p : ℕ} {b' : TriedbBranch} {c' : Children}
    (stored : s.nodes p = some (.branch b')) (below : Represents s d b' c') :
    Represents s (d + 1) (b.setChildPointer i p) (Function.update c i (.branch c')) :=
  rep.change rfl (full_set_child_pointer rep.2.1 i p)
    (fun j => slot_repoint_branch rep.2.1 off j p) (by exact ⟨b', c', stored, rfl, below⟩)

theorem Represents.empty_slot (rep : Represents s (d + 1) b c) {i : Fin 32}
    (occupied : b.mask.getLsbD i.val = true) :
    Represents s (d + 1) (b.setEmpty i) (Function.update c i .empty) :=
  rep.change rfl (full_set_empty rep.2.1 occupied) (slot_set_empty rep.2.1 occupied)
    (by exact rfl)

theorem Represents.mask_eq_zero_iff (rep : Represents s d b c) :
    b.mask = 0 ↔ ∀ i, (c i).isEmpty = true := by
  cases d with
  | zero => exact rep.elim
  | succ d =>
      rw [Branch.mask_eq_zero_iff]
      refine forall_congr' fun i => ?_
      have slot := rep.2.2 i
      rw [Tree.isEmpty_iff]
      cases here : b.slot i with
      | empty =>
          rw [here] at slot
          have shape : c i = .empty := slot
          simp [shape]
      | leaf p =>
          rw [here] at slot
          obtain ⟨l, _, shape⟩ := slot
          simp [shape]
      | branch p =>
          rw [here] at slot
          obtain ⟨_, _, _, shape, _⟩ := slot
          simp [shape]

end Slots

section Update

variable (P : TriedbParams)

/-- What writing a key below a branch can do; on an existing key an insert does nothing at all. -/
inductive UpdateOutcome (s : Triedb) (d : ℕ) (c : Children) (key : UInt64) (data : Bytes)
    (doInsert : Bool) : EStateM.Result Error Triedb (TriedbBranch × ℕ × Bool) → Prop
  | present (insert : doInsert = true)
      (found : ((Tree.branch c).lookup d key.toNat).isSome = true) :
      UpdateOutcome s d c key data doInsert
        (.error (.keyAlreadyExists (keyExistsMessage key)) s)
  | oversized (s' : Triedb) (big : ¬ Storable P data) :
      UpdateOutcome s d c key data doInsert (.error .assertion s')
  | written (b : TriedbBranch) (p : ℕ) (s' : Triedb) (small : Storable P data)
      (allowed : doInsert = true → (Tree.branch c).lookup d key.toNat = none)
      (stored : Stored s s' d (put d c key.toNat data) b p) :
      UpdateOutcome s d c key data doInsert
        (.ok (b, p, ((Tree.branch c).lookup d key.toNat).isNone) s')

private theorem hang_leaf {s : Triedb} {d : ℕ} {b : TriedbBranch} {c : Children} (key : UInt64)
    (data : Bytes) (fresh : Fresh s) (rep : Represents s (d + 1) b c) (i : Fin 32)
    (count : TriedbBranch → TriedbBranch)
    (keep : ∀ s node c, Represents s (d + 1) node c → Represents s (d + 1) (count node) c)
    (isNew : Bool) {run : Access (TriedbBranch × ℕ × Bool)}
    (same : run = do
      let leafPtr ← appendLeafNode P (newLeaf P key data)
      let (b, ptr) ← finishBranch P (count ((b.copy.setChildPointer i leafPtr).setLeaf i))
      return (b, ptr, isNew)) :
    (¬ Storable P data ∧ ∃ s', run s = .error .assertion s') ∨
      Storable P data ∧ ∃ b' p s', run s = .ok (b', p, isNew) s' ∧
        Stored s s' (d + 1) (Function.update c i (.leaf key.toNat data)) b' p := by
  subst same
  by_cases small : Storable P data
  · right
    obtain ⟨p, s₁, ran, grows, fresh₁, node⟩ :=
      appendLeafNode_ok P fresh _ ((storable_iff P key data).mp small)
    have hung := Represents.leaf_slot (Represents.copy (rep.mono grows.nodes)) i node
    rw [newLeaf_key, newLeaf_customData] at hung
    obtain ⟨b', p', s₂, finished, stored⟩ := finishBranch_ok P fresh₁ (keep _ _ _ hung)
    refine ⟨small, b', p', s₂, ?_, stored.after grows⟩
    rw [bind_ok ran, bind_ok finished]
    rfl
  · left
    obtain ⟨s', ran⟩ := appendLeafNode_error P s _ (mt (storable_iff P key data).mpr small)
    exact ⟨small, s', bind_error ran⟩

private theorem hang_branch {s : Triedb} {d : ℕ} {c c' : Children} {key : UInt64} {data : Bytes}
    {doInsert : Bool} {i : Fin 32} {x : Access (TriedbBranch × ℕ × Bool)}
    (hang : ℕ → TriedbBranch) (outcome : UpdateOutcome P s d c' key data doInsert (x s))
    (hung : ∀ s' b' p, Stored s s' d (put d c' key.toNat data) b' p →
      Represents s' (d + 1) (hang p) (Function.update c i (.branch (put d c' key.toNat data))))
    (lookup_eq : (Tree.branch c).lookup (d + 1) key.toNat = (Tree.branch c').lookup d key.toNat)
    (put_eq : put (d + 1) c key.toNat data =
      Function.update c i (.branch (put d c' key.toNat data)))
    {run : Access (TriedbBranch × ℕ × Bool)}
    (same : run = do
      let (_, newChildPtr, newEntry) ← x
      let (b, ptr) ← finishBranch P
        (if newEntry then (hang newChildPtr).addNumEntries 1 else hang newChildPtr)
      return (b, ptr, newEntry)) :
    UpdateOutcome P s (d + 1) c key data doInsert (run s) := by
  subst same
  generalize result : x s = r at outcome
  cases outcome with
  | present insert found =>
      rw [bind_error result]
      exact .present insert (lookup_eq ▸ found)
  | oversized s' big =>
      rw [bind_error result]
      exact .oversized s' big
  | written b' p s' small allowed stored =>
      rw [bind_ok result]
      have rep : Represents s' (d + 1)
          (if ((Tree.branch c').lookup d key.toNat).isNone then (hang p).addNumEntries 1 else hang p)
          (put (d + 1) c key.toNat data) := by
        rw [put_eq]
        split
        · exact represents_addNumEntries.mpr (hung s' b' p stored)
        · exact hung s' b' p stored
      obtain ⟨b₂, p₂, s₂, finished, stored₂⟩ := finishBranch_ok P stored.fresh rep
      dsimp only
      rw [bind_ok finished, ← lookup_eq]
      exact .written b₂ p₂ s₂ small (fun insert => lookup_eq.trans (allowed insert))
        (stored₂.after stored.grows)

theorem updatePart_outcome {s : Triedb} {d q : ℕ} {b : TriedbBranch} {c : Children}
    (key : UInt64) (data : Bytes) (doInsert : Bool) (fresh : Fresh s)
    (rep : Represents s d b c) (shallow : d ≤ MAX_DEPTH) (fits : (Tree.branch c).Fits d q)
    (below : key.toNat / 32 ^ d = q) :
    UpdateOutcome P s d c key data doInsert (updatePart P d b key data doInsert s) := by
  induction d generalizing s q b c with
  | zero => exact rep.elim
  | succ d ih =>
      have sub_eq : subIndex b.depth key = digit 32 d key.toNat := by
        rw [rep.1]
        exact subIndex_eq shallow key
      have here := Tree.div_eq_of_digit below
      have slot := rep.2.2 (digit 32 d key.toNat)
      have child_fits := fits (digit 32 d key.toNat)
      have lookup_eq := Tree.lookup_branch c d key.toNat
      have put_eq := put_succ d c key.toNat data
      unfold updatePart
      dsimp only
      rw [sub_eq]
      cases shape : b.slot (digit 32 d key.toNat) with
      | empty =>
          have free := (slot_eq_empty_iff b _).mp shape
          rw [shape] at slot
          have child : c (digit 32 d key.toNat) = .empty := slot
          rw [child] at lookup_eq put_eq
          rw [if_pos (by rw [isEmpty_eq, free]; rfl)]
          rcases hang_leaf P key data fresh rep (digit 32 d key.toNat) (·.addNumEntries 1)
            (fun _ _ _ => represents_addNumEntries.mpr) true rfl with
            ⟨big, s', ran⟩ | ⟨small, b', p, s', ran, stored⟩
          · rw [ran]
            exact .oversized s' big
          · rw [ran]
            have written : UpdateOutcome P s (d + 1) c key data doInsert _ :=
              .written b' p s' small (fun _ => lookup_eq) (put_eq ▸ stored)
            rwa [lookup_eq] at written
      | leaf p =>
          obtain ⟨occupied, bit, pointer⟩ := of_slot_leaf shape
          rw [shape] at slot
          obtain ⟨l, stored, child⟩ := slot
          rw [child] at lookup_eq put_eq child_fits
          rw [if_neg (by rw [isEmpty_eq, occupied]; decide),
            if_pos (by rw [isLeaf_eq, occupied, bit]; rfl), pointer, bind_ok (getLeaf_ok stored)]
          dsimp only at lookup_eq put_eq
          rw [Tree.lookup_leaf] at lookup_eq
          by_cases same : l.key = key
          · rw [if_pos (by rw [same])] at lookup_eq put_eq
            rw [if_pos same]
            cases doInsert with
            | true => exact .present rfl (by rw [lookup_eq]; rfl)
            | false =>
                rw [if_neg Bool.false_ne_true]
                rcases hang_leaf P key data fresh rep (digit 32 d key.toNat) id
                  (fun _ _ _ rep => rep) false rfl with ⟨big, s', ran⟩ | ⟨small, b', p, s', ran, kept⟩
                · exact (congrArg _ ran).mpr (.oversized s' big)
                · have written : UpdateOutcome P s (d + 1) c key data false _ :=
                    .written b' p s' small (by simp) (put_eq ▸ kept)
                  rw [lookup_eq] at written
                  exact (congrArg _ ran).mpr written
          · have other : l.key.toNat ≠ key.toNat := fun equal => same (UInt64.toNat_inj.mp equal)
            rw [if_neg (Ne.symm other)] at lookup_eq
            rw [if_neg other] at put_eq
            rw [if_neg same]
            cases d with
            | zero =>
                have equal : l.key.toNat = key.toNat := by
                  simpa using child_fits.trans here.symm
                exact absurd equal other
            | succ d =>
                rw [rep.1, Nat.add_sub_cancel, subIndex_eq (by omega) l.key]
                have small : d + 1 < 256 := by
                  simp only [MAX_DEPTH] at shallow
                  omega
                have tmp := Represents.leaf_slot (represents_fresh s small) (digit 32 d l.key.toNat)
                  stored
                rw [Nat.add_sub_cancel] at put_eq
                refine hang_branch P (fun p => (b.copy.setChildPointer _ p).setBranch _)
                  (ih fresh tmp (by omega) (fits_single child_fits) here) ?_
                  (lookup_eq.trans ((lookup_single d _ _ _).trans (if_neg (Ne.symm other))).symm)
                  put_eq rfl
                intro s' b₂ p₂ updated
                exact Represents.branch_slot (Represents.copy (rep.mono updated.grows.nodes)) _
                  updated.node updated.rep
      | branch p =>
          obtain ⟨occupied, bit, pointer⟩ := of_slot_branch shape
          rw [shape] at slot
          obtain ⟨b', c', stored, child, deeper⟩ := slot
          rw [child] at lookup_eq put_eq child_fits
          rw [if_neg (by rw [isEmpty_eq, occupied]; decide),
            if_neg (by rw [isLeaf_eq, occupied, bit]; decide), pointer,
            bind_ok (getBranch_ok stored)]
          refine hang_branch P (fun p => b.copy.setChildPointer _ p)
            (ih fresh deeper (by omega) child_fits here) ?_ lookup_eq put_eq rfl
          intro s' b₂ p₂ updated
          exact Represents.repoint_slot (Represents.copy (rep.mono updated.grows.nodes)) bit updated.node
            updated.rep

/-- What removing a key below a branch can do; on a missing key it does nothing at all. -/
inductive RemoveOutcome (s : Triedb) (d : ℕ) (c : Children) (key : UInt64) :
    EStateM.Result Error Triedb (TriedbBranch × ℕ) → Prop
  | missing (e : Error) (thrown : e ≠ .assertion)
      (absent : (Tree.branch c).lookup d key.toNat = none) :
      RemoveOutcome s d c key (.error e s)
  | removed (b : TriedbBranch) (p : ℕ) (s' : Triedb)
      (found : ((Tree.branch c).lookup d key.toNat).isSome = true)
      (stored : Stored s s' d (erase d c key.toNat) b p) :
      RemoveOutcome s d c key (.ok (b, p) s')

theorem removePart_outcome {s : Triedb} {d : ℕ} {b : TriedbBranch} {c : Children}
    (atRoot : RootId) (key : UInt64) (fresh : Fresh s) (rep : Represents s d b c)
    (shallow : d ≤ MAX_DEPTH) :
    RemoveOutcome s d c key (removePart P atRoot d b key s) := by
  induction d generalizing s b c with
  | zero => exact rep.elim
  | succ d ih =>
      have sub_eq : subIndex b.depth key = digit 32 d key.toNat := by
        rw [rep.1]
        exact subIndex_eq shallow key
      have slot := rep.2.2 (digit 32 d key.toNat)
      have lookup_eq := Tree.lookup_branch c d key.toNat
      unfold removePart
      dsimp only
      rw [sub_eq]
      cases shape : b.slot (digit 32 d key.toNat) with
      | empty =>
          have free := (slot_eq_empty_iff b _).mp shape
          rw [shape] at slot
          have child : c (digit 32 d key.toNat) = .empty := slot
          rw [child] at lookup_eq
          rw [if_pos (by rw [isEmpty_eq, free]; rfl)]
          exact .missing _ Error.noConfusion lookup_eq
      | leaf p =>
          obtain ⟨occupied, bit, pointer⟩ := of_slot_leaf shape
          rw [shape] at slot
          obtain ⟨l, stored, child⟩ := slot
          rw [child, Tree.lookup_leaf] at lookup_eq
          rw [if_neg (by rw [isEmpty_eq, occupied]; decide),
            if_pos (by rw [isLeaf_eq, occupied, bit]; rfl), pointer, bind_ok (getLeaf_ok stored)]
          by_cases same : l.key = key
          · rw [if_pos (by rw [same])] at lookup_eq
            rw [if_neg (not_not.mpr same)]
            have erased : erase (d + 1) c key.toNat =
                Function.update c (digit 32 d key.toNat) .empty := by
              simp only [erase, child, same, if_true]
            have emptied := Represents.empty_slot (Represents.copy rep) occupied
            obtain ⟨b', p', s', finished, kept⟩ :=
              finishBranch_ok P fresh (represents_subNumEntries.mpr emptied)
            rw [finished]
            exact .removed b' p' s' (by rw [lookup_eq]; rfl) (erased ▸ kept)
          · have other : ¬ key.toNat = l.key.toNat :=
              fun equal => same (UInt64.toNat_inj.mp equal.symm)
            rw [if_neg other] at lookup_eq
            rw [if_pos same]
            exact .missing _ Error.noConfusion lookup_eq
      | branch p =>
          obtain ⟨occupied, bit, pointer⟩ := of_slot_branch shape
          rw [shape] at slot
          obtain ⟨b', c', stored, child, deeper⟩ := slot
          rw [child] at lookup_eq
          rw [if_neg (by rw [isEmpty_eq, occupied]; decide),
            if_neg (by rw [isLeaf_eq, occupied, bit]; decide), pointer,
            bind_ok (getBranch_ok stored)]
          have outcome := ih fresh deeper (by omega)
          generalize result : removePart P atRoot d b' key s = r at outcome
          cases outcome with
          | missing e thrown absent =>
              rw [bind_error result]
              exact .missing e thrown (lookup_eq.trans absent)
          | removed b₂ p₂ s₂ found below =>
              rw [bind_ok result]
              have kept := Represents.copy (rep.mono below.grows.nodes)
              have hung : Represents s₂ (d + 1)
                  (if b₂.mask = 0 then b.copy.setEmpty (digit 32 d key.toNat)
                    else b.copy.setChildPointer (digit 32 d key.toNat) p₂)
                  (erase (d + 1) c key.toNat) := by
                simp only [erase, child, ← Represents.mask_eq_zero_iff below.rep]
                split
                · exact Represents.empty_slot kept occupied
                · exact Represents.repoint_slot kept bit below.node below.rep
              obtain ⟨b₃, p₃, s₃, finished, stored₃⟩ :=
                finishBranch_ok P below.fresh (represents_subNumEntries.mpr hung)
              dsimp only
              rw [finished]
              exact .removed b₃ p₃ s₃ (lookup_eq ▸ found) (stored₃.after below.grows)

theorem growRoot_ok {s : Triedb} {fuel d p : ℕ} {b : TriedbBranch} {c : Children}
    (key : UInt64) (fresh : Fresh s) (stored : s.nodes p = some (.branch b))
    (rep : Represents s d b c) (shallow : d ≤ MAX_DEPTH) (enough : MAX_DEPTH < d + fuel)
    (fits : (Tree.branch c).Fits d 0) :
    ∃ b' s' d' c', growRoot P (computeMaxKeyBits key) fuel b p d s = .ok b' s' ∧ Extends s s' ∧
      Fresh s' ∧ Represents s' d' b' c' ∧ d' ≤ MAX_DEPTH ∧ (Tree.branch c').Fits d' 0 ∧
      key.toNat / 32 ^ d' = 0 ∧
      ∀ k, (Tree.branch c').lookup d' k = (Tree.branch c).lookup d k := by
  induction fuel generalizing s d p b c with
  | zero => omega
  | succ fuel ih =>
      unfold growRoot
      by_cases high : computeMaxKeyBits key > d * MAX_BRANCH_BITS
      · rw [if_pos high]
        have lower : d + 1 ≤ MAX_DEPTH := by
          have := computeMaxKeyBits_le_max key
          simp only [MAX_BRANCH_BITS] at high
          omega
        have small : d + 1 < 256 := by
          simp only [MAX_DEPTH] at lower
          omega
        have off : (({} : TriedbBranch).setDepth (d + 1)).leaf.getLsbD (0 : Fin 32).val = false := by
          simp [TriedbBranch.setDepth]
        have above := Represents.repoint_slot (represents_fresh s small) off stored rep
        obtain ⟨b', p', s', finished, kept⟩ := finishBranch_ok P fresh above
        dsimp only
        rw [bind_ok finished]
        obtain ⟨b₂, s₂, d₂, c₂, ran, grows, rest⟩ := ih kept.fresh kept.node kept.rep lower
          (by omega) (fits_grow fits)
        obtain ⟨fresh₂, rep₂, shallow₂, fits₂, inside, same⟩ := rest
        exact ⟨b₂, s₂, d₂, c₂, ran, kept.grows.trans grows, fresh₂, rep₂, shallow₂, fits₂, inside,
          fun k => (same k).trans (lookup_grow fits)⟩
      · rw [if_neg high]
        exact ⟨b, s, d, c, rfl, .refl s, fresh, rep, shallow, fits,
          (computeMaxKeyBits_le rep.pos).mp (by omega), fun _ => rfl⟩

end Update

end Epilog.Db.PathUpdate
