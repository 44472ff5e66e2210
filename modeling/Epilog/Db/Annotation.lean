/- Module: Epilog/Db/Annotation
   source: src/src/db/triedb.cpp (update_part, remove_part, growth in insert_or_update)
   digest: What the path operations do to the hashes and the counts that stored nodes carry. -/

import Epilog.Db.PathUpdate
import Epilog.Lib.TreeShape

set_option autoImplicit false

namespace Epilog.Db.Annotation

open Epilog.Lib.DigitTree Epilog.Lib.TreeShape Epilog.Common.Bits Epilog.Db.Branch
open Epilog.Db.Store Epilog.Db.Representation Epilog.Db.PathUpdate

/-- What is asked of stored leaves and where they stand, and of stored branches with what stands
below them. -/
structure Notes where
  leaf : ℕ → TriedbLeaf → Prop
  branch : ℕ → TriedbBranch → Children → Prop

def SlotAnnotated (N : Notes) (s : Triedb) (rep : TriedbBranch → Children → Prop) :
    Slot → Tree 32 Bytes → Prop
  | .empty, t => t = .empty
  | .leaf p, t => ∃ l, s.nodes p = some (.leaf l) ∧ t = .leaf l.key.toNat l.customData ∧ N.leaf p l
  | .branch p, t => ∃ b c, s.nodes p = some (.branch b) ∧ t = .branch c ∧ rep b c

/-- A branch represents the children `c`, and the notes hold of all nodes below it. -/
def Annotated (N : Notes) (s : Triedb) : ℕ → TriedbBranch → Children → Prop
  | 0, _, _ => False
  | d + 1, b, c => b.depth = d + 1 ∧ b.Full ∧
      ∀ i, SlotAnnotated N s (fun b c => N.branch d b c ∧ Annotated N s d b c) (b.slot i) (c i)

section Slots

variable {N : Notes} {s s' : Triedb} {d : ℕ} {b : TriedbBranch} {c : Children}

theorem Annotated.rep (ann : Annotated N s d b c) : Represents s d b c := by
  induction d generalizing b c with
  | zero => exact ann
  | succ d ih =>
    obtain ⟨depth, full, slots⟩ := ann
    refine ⟨depth, full, fun i => ?_⟩
    have slot := slots i
    cases here : b.slot i with
    | empty =>
      rw [here] at slot
      exact slot
    | leaf p =>
      rw [here] at slot
      obtain ⟨l, stored, shape, -⟩ := slot
      exact ⟨l, stored, shape⟩
    | branch p =>
      rw [here] at slot
      obtain ⟨b', c', stored, shape, -, below⟩ := slot
      exact ⟨b', c', stored, shape, ih below⟩

theorem Annotated.mono (keep : ∀ p n, s.nodes p = some n → s'.nodes p = some n)
    (ann : Annotated N s d b c) : Annotated N s' d b c := by
  induction d generalizing b c with
  | zero => exact ann
  | succ d ih =>
    obtain ⟨depth, full, slots⟩ := ann
    refine ⟨depth, full, fun i => ?_⟩
    have slot := slots i
    cases here : b.slot i with
    | empty =>
      rw [here] at slot
      exact slot
    | leaf p =>
      rw [here] at slot
      obtain ⟨l, stored, shape, noted⟩ := slot
      exact ⟨l, keep _ _ stored, shape, noted⟩
    | branch p =>
      rw [here] at slot
      obtain ⟨b', c', stored, shape, noted, below⟩ := slot
      exact ⟨b', c', keep _ _ stored, shape, noted, ih below⟩

theorem Annotated.change {b' : TriedbBranch} (ann : Annotated N s (d + 1) b c) {i : Fin 32}
    {slot : Slot} {t : Tree 32 Bytes} (depth : b'.depth = b.depth) (full : b'.Full)
    (slots : ∀ j, b'.slot j = if j = i then slot else b.slot j)
    (here : SlotAnnotated N s (fun b c => N.branch d b c ∧ Annotated N s d b c) slot t) :
    Annotated N s (d + 1) b' (Function.update c i t) := by
  refine ⟨depth.trans ann.1, full, fun j => ?_⟩
  rw [slots j, Function.update_apply]
  split
  · exact here
  · exact ann.2.2 j

theorem annotated_fresh (s : Triedb) {d : ℕ} (small : d + 1 < 256) :
    Annotated N s (d + 1) (({} : TriedbBranch).setDepth (d + 1)) fun _ => .empty := by
  refine ⟨Nat.mod_eq_of_lt small, full_fresh _, fun i => ?_⟩
  rw [slot_fresh]
  rfl

theorem Annotated.setHash {h : Bytes} (ann : Annotated N s d b c) :
    Annotated N s d (b.setHash h) c := by
  cases d with
  | zero => exact ann
  | succ d => exact ann

theorem Annotated.addNumEntries (ann : Annotated N s d b c) (dn : UInt64) :
    Annotated N s d (b.addNumEntries dn) c := by
  cases d with
  | zero => exact ann
  | succ d => exact ann

theorem Annotated.subNumEntries (ann : Annotated N s d b c) (dn : UInt64) :
    Annotated N s d (b.subNumEntries dn) c := by
  cases d with
  | zero => exact ann
  | succ d => exact ann

theorem Annotated.copy (ann : Annotated N s d b c) : Annotated N s d b.copy c := by
  cases d with
  | zero => exact ann
  | succ d => exact ⟨ann.1, copy_full ann.2.1, fun i => slot_copy b i ▸ ann.2.2 i⟩

theorem Annotated.leaf_slot (ann : Annotated N s (d + 1) b c) (i : Fin 32) {p : ℕ}
    {l : TriedbLeaf} (stored : s.nodes p = some (.leaf l)) (noted : N.leaf p l) :
    Annotated N s (d + 1) ((b.setChildPointer i p).setLeaf i)
      (Function.update c i (.leaf l.key.toNat l.customData)) :=
  ann.change rfl (full_set_child_pointer ann.2.1 i p) (fun j => slot_put_leaf ann.2.1 i j p)
    (by exact ⟨l, stored, rfl, noted⟩)

theorem Annotated.branch_slot (ann : Annotated N s (d + 1) b c) (i : Fin 32) {p : ℕ}
    {b' : TriedbBranch} {c' : Children} (stored : s.nodes p = some (.branch b'))
    (noted : N.branch d b' c') (below : Annotated N s d b' c') :
    Annotated N s (d + 1) ((b.setChildPointer i p).setBranch i)
      (Function.update c i (.branch c')) :=
  ann.change rfl (full_set_child_pointer ann.2.1 i p) (fun j => slot_put_branch ann.2.1 i j p)
    (by exact ⟨b', c', stored, rfl, noted, below⟩)

theorem Annotated.repoint_slot (ann : Annotated N s (d + 1) b c) {i : Fin 32}
    (off : b.leaf.getLsbD i.val = false) {p : ℕ} {b' : TriedbBranch} {c' : Children}
    (stored : s.nodes p = some (.branch b')) (noted : N.branch d b' c')
    (below : Annotated N s d b' c') :
    Annotated N s (d + 1) (b.setChildPointer i p) (Function.update c i (.branch c')) :=
  ann.change rfl (full_set_child_pointer ann.2.1 i p)
    (fun j => slot_repoint_branch ann.2.1 off j p) (by exact ⟨b', c', stored, rfl, noted, below⟩)

theorem Annotated.empty_slot (ann : Annotated N s (d + 1) b c) {i : Fin 32}
    (occupied : b.mask.getLsbD i.val = true) :
    Annotated N s (d + 1) (b.setEmpty i) (Function.update c i .empty) :=
  ann.change rfl (full_set_empty ann.2.1 occupied) (slot_set_empty ann.2.1 occupied)
    (by exact rfl)

end Slots

/-- Notes that the path operations keep up, by way of a condition on the counts of branches
before they are hashed. -/
structure Upkeep (P : TriedbParams) extends Notes where
  draft : UInt64 → Children → Prop
  newLeaf_noted : ∀ {p} key data, 0 < p →
    leafSerializationSize (newLeaf P key data) < LEAF_MAX_SIZE_IN_BYTES → leaf p (newLeaf P key data)
  draft_of_noted : ∀ {d b c}, branch d b c → draft b.num c
  finished : ∀ {s s' d b b' c}, Annotated toNotes s d b c → draft b.num c →
    branchHasher P b s = .ok b' s' → branch d b' c
  draft_put : ∀ {d q c n} {key : ℕ} (data : Bytes), (Tree.branch c).Fits (d + 1) q →
    key / 32 ^ (d + 1) = q → draft n c →
    draft (if ((Tree.branch c).lookup (d + 1) key).isNone then n + 1 else n)
      (put (d + 1) c key data)
  draft_erase : ∀ {d c n} {key : ℕ}, ((Tree.branch c).lookup d key).isSome = true →
    draft n c → draft (n - 1) (erase d c key)

section Inversion

variable {α β : Type}

theorem bind_eq_ok {x : Access α} {f : α → Access β} {s s' : Triedb} {r : β}
    (ran : (x >>= f) s = .ok r s') : ∃ a s₁, x s = .ok a s₁ ∧ f a s₁ = .ok r s' := by
  simp only [bind, EStateM.bind] at ran
  cases first : x s with
  | ok a s₁ =>
    rw [first] at ran
    exact ⟨a, s₁, rfl, ran⟩
  | error e s₁ =>
    rw [first] at ran
    cases ran

variable {P : TriedbParams}

/-- Something has been stored. -/
def Begun (s : Triedb) : Prop := ∃ p n, s.nodes p = some n

theorem Begun.extend {s s' : Triedb} (begun : Begun s) (grows : Extends s s') :
    Begun s' := by
  obtain ⟨p, n, stored⟩ := begun
  exact ⟨p, n, grows.nodes p n stored⟩

theorem Begun.lastOffset_pos {s : Triedb} (begun : Begun s) (fresh : Fresh s) :
    0 < s.lastOffset := by
  obtain ⟨p, n, stored⟩ := begun
  by_contra zero
  rw [fresh p (by omega)] at stored
  cases stored

theorem appendLeafNode_eq_ok {s s' : Triedb} (fresh : Fresh s) (begun : Begun s)
    {l : TriedbLeaf} {p : ℕ} (ran : appendLeafNode P l s = .ok p s') :
    Extends s s' ∧ Fresh s' ∧ s'.nodes p = some (.leaf l) ∧ 0 < p ∧
      leafSerializationSize l < LEAF_MAX_SIZE_IN_BYTES := by
  by_cases small : leafSerializationSize l < LEAF_MAX_SIZE_IN_BYTES
  · have unfolded : appendLeafNode P l s =
        .ok (appendOffset P s.lastOffset (leafSerializationSize l)) _ := if_pos small
    obtain ⟨p', s₁, ran', grows, fresh', stored⟩ := appendLeafNode_ok P fresh l small
    rw [ran] at ran'
    cases ran'
    rw [ran] at unfolded
    cases unfolded
    exact ⟨grows, fresh', stored, lt_of_lt_of_le (begun.lastOffset_pos fresh)
      (le_appendOffset P _ _), small⟩
  · obtain ⟨s₁, ran'⟩ := appendLeafNode_error P s l small
    rw [ran] at ran'
    cases ran'

end Inversion

section Path

variable {P : TriedbParams} (A : Upkeep P)

theorem finish_annotated {s s' : Triedb} {d p : ℕ} {b b' : TriedbBranch} {c : Children}
    (fresh : Fresh s) (ann : Annotated A.toNotes s d b c) (draft : A.draft b.num c)
    (ran : finishBranch P b s = .ok (b', p) s') :
    Annotated A.toNotes s' d b' c ∧ A.branch d b' c ∧ s'.nodes p = some (.branch b') ∧
      Extends s s' ∧ Fresh s' := by
  obtain ⟨h, hashed⟩ := branchHasher_ok P ann.rep
  have grows := extends_appendNode P fresh (.branch (b.setHash h)) (b.setHash h).serializationSize
  have unfolded : finishBranch P b s = .ok (b.setHash h, _) _ := bind_ok hashed
  rw [ran] at unfolded
  cases unfolded
  exact ⟨(ann.setHash).mono grows.nodes, A.finished ann draft hashed, nodes_appendNode P _ _ _,
    grows, fresh_appendNode P fresh _ (serializationSize_pos _)⟩

/-- Splitting a leaf starts from a branch that counts nothing. -/
def Calm (d : ℕ) (c : Children) (key : ℕ) : Prop :=
  splits d c key = true → ∀ i k v, A.draft 0 (Function.update (fun _ => .empty) i (.leaf k v))

theorem updatePart_stored {s s' : Triedb} {d q p : ℕ} {b b' : TriedbBranch} {c : Children}
    {key : UInt64} {data : Bytes} {doInsert new : Bool} (fresh : Fresh s)
    (rep : Represents s d b c) (shallow : d ≤ MAX_DEPTH) (fits : (Tree.branch c).Fits d q)
    (below : key.toNat / 32 ^ d = q)
    (ran : updatePart P d b key data doInsert s = .ok (b', p, new) s') :
    Stored s s' d (put d c key.toNat data) b' p ∧
      new = ((Tree.branch c).lookup d key.toNat).isNone := by
  have outcome := updatePart_outcome P key data doInsert fresh rep shallow fits below
  rw [ran] at outcome
  cases outcome with
  | written _ _ _ small allowed stored => exact ⟨stored, rfl⟩

theorem updatePart_annotated {s s' : Triedb} {d q p : ℕ} {b b' : TriedbBranch} {c : Children}
    {key : UInt64} {data : Bytes} {doInsert new : Bool} (fresh : Fresh s) (begun : Begun s)
    (ann : Annotated A.toNotes s d b c) (draft : A.draft b.num c) (calm : Calm A d c key.toNat)
    (shallow : d ≤ MAX_DEPTH) (fits : (Tree.branch c).Fits d q) (below : key.toNat / 32 ^ d = q)
    (ran : updatePart P d b key data doInsert s = .ok (b', p, new) s') :
    Annotated A.toNotes s' d b' (put d c key.toNat data) ∧
      A.branch d b' (put d c key.toNat data) := by
  induction d generalizing s s' q p b b' c new with
  | zero => exact ann.elim
  | succ d ih =>
    have sub_eq : subIndex b.depth key = digit 32 d key.toNat := by
      rw [ann.1]
      exact subIndex_eq shallow key
    have here := Tree.div_eq_of_digit below
    have slot := ann.2.2 (digit 32 d key.toNat)
    have child_fits := fits (digit 32 d key.toNat)
    have lookup_eq := Tree.lookup_branch c d key.toNat
    have put_eq := put_succ d c key.toNat data
    have counted := A.draft_put data fits below draft
    unfold updatePart at ran
    dsimp only at ran
    rw [sub_eq] at ran
    cases shape : b.slot (digit 32 d key.toNat) with
    | empty =>
      have free := (slot_eq_empty_iff b _).mp shape
      rw [shape] at slot
      have child : c (digit 32 d key.toNat) = .empty := slot
      rw [child] at lookup_eq put_eq
      rw [if_pos (by rw [isEmpty_eq, free]; rfl)] at ran
      obtain ⟨leafPtr, s₁, appended, ran⟩ := bind_eq_ok ran
      obtain ⟨⟨b₁, p₁⟩, s₂, finished, ran⟩ := bind_eq_ok ran
      cases ran
      obtain ⟨grows, fresh₁, stored, pos, small⟩ := appendLeafNode_eq_ok fresh begun appended
      rw [lookup_eq] at counted
      have hung := ((ann.mono grows.nodes).copy.leaf_slot (digit 32 d key.toNat) stored
        (A.newLeaf_noted key data pos small)).addNumEntries 1
      rw [newLeaf_key, newLeaf_customData, ← put_eq] at hung
      obtain ⟨done, noted, -⟩ := finish_annotated A fresh₁ hung counted finished
      exact ⟨done, noted⟩
    | leaf p =>
      obtain ⟨occupied, bit, pointer⟩ := of_slot_leaf shape
      rw [shape] at slot
      obtain ⟨l, stored, child, noted⟩ := slot
      rw [child] at lookup_eq put_eq child_fits
      dsimp only at lookup_eq put_eq
      rw [Tree.lookup_leaf] at lookup_eq
      rw [if_neg (by rw [isEmpty_eq, occupied]; decide),
        if_pos (by rw [isLeaf_eq, occupied, bit]; rfl), pointer,
        bind_ok (getLeaf_ok stored)] at ran
      by_cases same : l.key = key
      · rw [if_pos (by rw [same])] at lookup_eq put_eq
        rw [if_pos same] at ran
        cases doInsert with
        | true => cases ran
        | false =>
          rw [if_neg Bool.false_ne_true] at ran
          obtain ⟨leafPtr, s₁, appended, ran⟩ := bind_eq_ok ran
          obtain ⟨⟨b₁, p₁⟩, s₂, finished, ran⟩ := bind_eq_ok ran
          cases ran
          obtain ⟨grows, fresh₁, stored', pos, small⟩ := appendLeafNode_eq_ok fresh begun appended
          rw [lookup_eq] at counted
          have hung := (ann.mono grows.nodes).copy.leaf_slot (digit 32 d key.toNat) stored'
            (A.newLeaf_noted key data pos small)
          rw [newLeaf_key, newLeaf_customData, ← put_eq] at hung
          obtain ⟨done, noted', -⟩ := finish_annotated A fresh₁ hung counted finished
          exact ⟨done, noted'⟩
      · have other : l.key.toNat ≠ key.toNat := fun equal => same (UInt64.toNat_inj.mp equal)
        rw [if_neg (Ne.symm other)] at lookup_eq
        rw [if_neg other] at put_eq
        rw [if_neg same] at ran
        cases d with
        | zero =>
          have equal : l.key.toNat = key.toNat := by
            simpa using child_fits.trans here.symm
          exact absurd equal other
        | succ d =>
          rw [ann.1, Nat.add_sub_cancel, subIndex_eq (by omega) l.key] at ran
          rw [Nat.add_sub_cancel] at put_eq
          obtain ⟨⟨b₁, p₁, new₁⟩, s₁, split, ran⟩ := bind_eq_ok ran
          obtain ⟨⟨b₂, p₂⟩, s₂, finished, ran⟩ := bind_eq_ok ran
          cases ran
          have small : d + 1 < 256 := by
            simp only [MAX_DEPTH] at shallow
            omega
          have tmp := (annotated_fresh (N := A.toNotes) s small).leaf_slot
            (digit 32 d l.key.toNat) stored noted
          have tmp_fits := fits_single child_fits (w := l.customData)
          have splitting : splits (d + 1 + 1) c key.toNat = true := by
            simp [splits, child, other]
          have nothing : A.draft 0 _ := calm splitting (digit 32 d l.key.toNat) l.key.toNat l.customData
          have calm' : Calm A (d + 1) (Function.update (fun _ => .empty) (digit 32 d l.key.toNat)
              (.leaf l.key.toNat l.customData)) key.toNat := fun _ => calm splitting
          obtain ⟨below₁, noted₁⟩ := ih fresh begun tmp nothing calm' (by omega) tmp_fits here split
          obtain ⟨kept, isNew⟩ := updatePart_stored fresh tmp.rep (by omega) tmp_fits here split
          rw [lookup_single, if_neg (Ne.symm other)] at isNew
          rw [lookup_eq] at counted
          have hung := ((ann.mono kept.grows.nodes).copy.branch_slot (digit 32 (d + 1) key.toNat)
            kept.node noted₁ below₁).addNumEntries 1
          rw [← put_eq] at hung
          rw [isNew] at finished
          obtain ⟨done, noted', -⟩ := finish_annotated A kept.fresh hung counted finished
          exact ⟨done, noted'⟩
    | branch p =>
      obtain ⟨occupied, bit, pointer⟩ := of_slot_branch shape
      rw [shape] at slot
      obtain ⟨b', c', stored, child, noted, deeper⟩ := slot
      rw [child] at lookup_eq put_eq child_fits
      rw [if_neg (by rw [isEmpty_eq, occupied]; decide),
        if_neg (by rw [isLeaf_eq, occupied, bit]; decide), pointer,
        bind_ok (getBranch_ok stored)] at ran
      obtain ⟨⟨b₁, p₁, new₁⟩, s₁, descended, ran⟩ := bind_eq_ok ran
      obtain ⟨⟨b₂, p₂⟩, s₂, finished, ran⟩ := bind_eq_ok ran
      cases ran
      have calm' : Calm A d c' key.toNat := by
        intro splitting
        apply calm
        simpa only [splits, child] using splitting
      obtain ⟨below₁, noted₁⟩ := ih fresh begun deeper (A.draft_of_noted noted) calm' (by omega)
        child_fits here descended
      obtain ⟨kept, isNew⟩ := updatePart_stored fresh deeper.rep (by omega) child_fits here descended
      rw [lookup_eq, ← isNew] at counted
      have hung := (ann.mono kept.grows.nodes).copy.repoint_slot bit kept.node noted₁ below₁
      rw [← put_eq] at hung
      cases new₁ with
      | true =>
        obtain ⟨done, noted', -⟩ := finish_annotated A kept.fresh (hung.addNumEntries 1)
          counted finished
        exact ⟨done, noted'⟩
      | false =>
        obtain ⟨done, noted', -⟩ := finish_annotated A kept.fresh hung counted finished
        exact ⟨done, noted'⟩

theorem removePart_annotated {s s' : Triedb} {d p : ℕ} {b b' : TriedbBranch} {c : Children}
    {atRoot : RootId} {key : UInt64} (fresh : Fresh s) (ann : Annotated A.toNotes s d b c)
    (draft : A.draft b.num c) (shallow : d ≤ MAX_DEPTH)
    (ran : removePart P atRoot d b key s = .ok (b', p) s') :
    Annotated A.toNotes s' d b' (erase d c key.toNat) ∧
      A.branch d b' (erase d c key.toNat) := by
  induction d generalizing s s' p b b' c with
  | zero => exact ann.elim
  | succ d ih =>
    have sub_eq : subIndex b.depth key = digit 32 d key.toNat := by
      rw [ann.1]
      exact subIndex_eq shallow key
    have slot := ann.2.2 (digit 32 d key.toNat)
    have lookup_eq := Tree.lookup_branch c d key.toNat
    unfold removePart at ran
    dsimp only at ran
    rw [sub_eq] at ran
    cases shape : b.slot (digit 32 d key.toNat) with
    | empty =>
      have free := (slot_eq_empty_iff b _).mp shape
      rw [if_pos (by rw [isEmpty_eq, free]; rfl)] at ran
      cases ran
    | leaf p =>
      obtain ⟨occupied, bit, pointer⟩ := of_slot_leaf shape
      rw [shape] at slot
      obtain ⟨l, stored, child, noted⟩ := slot
      rw [child, Tree.lookup_leaf] at lookup_eq
      rw [if_neg (by rw [isEmpty_eq, occupied]; decide),
        if_pos (by rw [isLeaf_eq, occupied, bit]; rfl), pointer,
        bind_ok (getLeaf_ok stored)] at ran
      by_cases same : l.key = key
      · rw [if_pos (by rw [same])] at lookup_eq
        rw [if_neg (not_not.mpr same)] at ran
        have erased : erase (d + 1) c key.toNat =
            Function.update c (digit 32 d key.toNat) .empty := by
          simp only [erase, child, same, if_true]
        have counted := A.draft_erase (by rw [lookup_eq]; rfl) draft
        have emptied := (ann.copy.empty_slot occupied).subNumEntries 1
        rw [← erased] at emptied
        obtain ⟨done, noted', -⟩ := finish_annotated A fresh emptied counted ran
        exact ⟨done, noted'⟩
      · rw [if_pos same] at ran
        cases ran
    | branch p =>
      obtain ⟨occupied, bit, pointer⟩ := of_slot_branch shape
      rw [shape] at slot
      obtain ⟨b', c', stored, child, noted, deeper⟩ := slot
      rw [child] at lookup_eq
      rw [if_neg (by rw [isEmpty_eq, occupied]; decide),
        if_neg (by rw [isLeaf_eq, occupied, bit]; decide), pointer,
        bind_ok (getBranch_ok stored)] at ran
      obtain ⟨⟨b₁, p₁⟩, s₁, descended, finished⟩ := bind_eq_ok ran
      obtain ⟨below₁, noted₁⟩ := ih fresh deeper (A.draft_of_noted noted) (by omega) descended
      have outcome := removePart_outcome P atRoot key fresh deeper.rep (by omega)
      rw [descended] at outcome
      cases outcome with
      | removed _ _ _ found kept =>
        have counted := A.draft_erase (lookup_eq ▸ found) draft
        have copied := (ann.mono kept.grows.nodes).copy
        have hung : Annotated A.toNotes s₁ (d + 1)
            (if b₁.mask = 0 then b.copy.setEmpty (digit 32 d key.toNat)
              else b.copy.setChildPointer (digit 32 d key.toNat) p₁)
            (erase (d + 1) c key.toNat) := by
          simp only [erase, child, ← Represents.mask_eq_zero_iff kept.rep]
          split
          · exact copied.empty_slot occupied
          · exact copied.repoint_slot bit kept.node noted₁ below₁
        have same_num : (if b₁.mask = 0 then b.copy.setEmpty (digit 32 d key.toNat)
            else b.copy.setChildPointer (digit 32 d key.toNat) p₁).num = b.num := by
          split <;> rfl
        obtain ⟨done, noted', -⟩ := finish_annotated A kept.fresh (hung.subNumEntries 1)
          (by rw [TriedbBranch.subNumEntries, same_num]; exact counted) finished
        exact ⟨done, noted'⟩

theorem growRoot_annotated {s : Triedb} {fuel d p : ℕ} {b : TriedbBranch} {c : Children}
    (key : UInt64) (fresh : Fresh s) (stored : s.nodes p = some (.branch b))
    (ann : Annotated A.toNotes s d b c) (noted : A.branch d b c) (shallow : d ≤ MAX_DEPTH)
    (enough : MAX_DEPTH < d + fuel) (fits : (Tree.branch c).Fits d 0)
    (quiet : key.toNat / 32 ^ d ≠ 0 → ∀ c' : Children,
      size (.branch c') = size (.branch c) → A.draft 0 c') :
    ∃ b' s' d' c', growRoot P (computeMaxKeyBits key) fuel b p d s = .ok b' s' ∧ Extends s s' ∧
      Fresh s' ∧ Annotated A.toNotes s' d' b' c' ∧ A.branch d' b' c' ∧ d' ≤ MAX_DEPTH ∧
      Grown d c d' c' ∧ key.toNat / 32 ^ d' = 0 ∧ (d = d' ∨ key.toNat / 32 ^ (d' - 1) ≠ 0) := by
  induction fuel generalizing s d p b c with
  | zero => omega
  | succ fuel ih =>
    unfold growRoot
    by_cases high : computeMaxKeyBits key > d * MAX_BRANCH_BITS
    · rw [if_pos high]
      have larger : key.toNat / 32 ^ d ≠ 0 := by
        intro zero
        have := (computeMaxKeyBits_le ann.rep.pos).mpr zero
        omega
      have lower : d + 1 ≤ MAX_DEPTH := by
        have := computeMaxKeyBits_le_max key
        simp only [MAX_BRANCH_BITS] at high
        omega
      have small : d + 1 < 256 := by
        simp only [MAX_DEPTH] at lower
        omega
      have off : (({} : TriedbBranch).setDepth (d + 1)).leaf.getLsbD (0 : Fin 32).val = false := by
        simp [TriedbBranch.setDepth]
      have above := (annotated_fresh (N := A.toNotes) s small).repoint_slot off stored noted ann
      obtain ⟨b', p', s', ran, -⟩ := finishBranch_ok P fresh above.rep
      obtain ⟨ann', noted', stored', grows, fresh'⟩ :=
        finish_annotated A fresh above (quiet larger _ (size_lift c)) ran
      dsimp only
      rw [bind_ok ran]
      obtain ⟨b₂, s₂, d₂, c₂, ran₂, grows₂, fresh₂, ann₂, noted₂, shallow₂, grown, inside, last⟩ :=
        ih fresh' stored' ann' noted' lower (by omega) (fits_grow fits) (by
          intro still c' same
          exact quiet larger c' (same.trans (size_lift c)))
      refine ⟨b₂, s₂, d₂, c₂, ran₂, grows.trans grows₂, fresh₂, ann₂, noted₂, shallow₂,
        .lift grown, inside, .inr ?_⟩
      rcases last with rfl | last
      · exact larger
      · exact last
    · rw [if_neg high]
      exact ⟨b, s, d, c, rfl, .refl s, fresh, ann, noted, shallow, .refl d c,
        (computeMaxKeyBits_le ann.rep.pos).mp (by omega), .inl rfl⟩

end Path

end Epilog.Db.Annotation
