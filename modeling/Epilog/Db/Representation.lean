/- Module: Epilog/Db/Representation
   source: src/src/db/triedb.cpp
   digest: Stored branches represent digit trees, and the path operations refine put and erase. -/

import Epilog.Db.Store
import Epilog.Lib.DigitTree

set_option autoImplicit false

namespace Epilog.Db.Representation

open Epilog.Lib.DigitTree Epilog.Common.Bits Epilog.Db.Branch Epilog.Db.Store

abbrev Children := Fin 32 → Tree 32 Bytes

/-- What a slot stands for, given what the branches one level down stand for. -/
def SlotRepresents (s : Triedb) (rep : TriedbBranch → Children → Prop) : Slot → Tree 32 Bytes → Prop
  | .empty, t => t = .empty
  | .leaf p, t => ∃ l, s.nodes p = some (.leaf l) ∧ t = .leaf l.key.toNat l.customData
  | .branch p, t => ∃ b c, s.nodes p = some (.branch b) ∧ t = .branch c ∧ rep b c

/-- A branch of depth `d` and everything below it represent the children `c` of a digit tree. -/
def Represents (s : Triedb) : ℕ → TriedbBranch → Children → Prop
  | 0, _, _ => False
  | d + 1, b, c =>
      b.depth = d + 1 ∧ b.Full ∧ ∀ i, SlotRepresents s (Represents s d) (b.slot i) (c i)

/-- Nothing is stored from `lastOffset` on. -/
def Fresh (s : Triedb) : Prop := ∀ p, s.lastOffset ≤ p → s.nodes p = none

/-- Nodes are only added, and the roots are not touched. -/
structure Extends (s s' : Triedb) : Prop where
  nodes : ∀ p n, s.nodes p = some n → s'.nodes p = some n
  roots : s'.roots = s.roots
  rootsFile : s'.rootsFile = s.rootsFile
  rootsPos : s'.rootsPos = s.rootsPos

theorem Extends.refl (s : Triedb) : Extends s s := ⟨fun _ _ stored => stored, rfl, rfl, rfl⟩

theorem Extends.trans {s s' s'' : Triedb} (first : Extends s s') (second : Extends s' s'') :
    Extends s s'' where
  nodes p n stored := second.nodes p n (first.nodes p n stored)
  roots := second.roots.trans first.roots
  rootsFile := second.rootsFile.trans first.rootsFile
  rootsPos := second.rootsPos.trans first.rootsPos

section Monotone

variable {s s' : Triedb}

theorem SlotRepresents.mono (keep : ∀ p n, s.nodes p = some n → s'.nodes p = some n)
    {rep rep' : TriedbBranch → Children → Prop} (weaker : ∀ b c, rep b c → rep' b c)
    {slot : Slot} {t : Tree 32 Bytes} (here : SlotRepresents s rep slot t) :
    SlotRepresents s' rep' slot t := by
  cases slot with
  | empty => exact here
  | leaf p =>
      obtain ⟨l, stored, shape⟩ := here
      exact ⟨l, keep _ _ stored, shape⟩
  | branch p =>
      obtain ⟨b, c, stored, shape, below⟩ := here
      exact ⟨b, c, keep _ _ stored, shape, weaker _ _ below⟩

theorem Represents.mono (keep : ∀ p n, s.nodes p = some n → s'.nodes p = some n) {d : ℕ}
    {b : TriedbBranch} {c : Children} (rep : Represents s d b c) : Represents s' d b c := by
  induction d generalizing b c with
  | zero => exact rep
  | succ d ih =>
      obtain ⟨depth, full, slots⟩ := rep
      exact ⟨depth, full, fun i => (slots i).mono keep fun _ _ => ih⟩

end Monotone

theorem Represents.pos {s : Triedb} {d : ℕ} {b : TriedbBranch} {c : Children}
    (rep : Represents s d b c) : 1 ≤ d := by
  cases d with
  | zero => exact rep.elim
  | succ d => omega

theorem Represents.depth_eq {s : Triedb} {d : ℕ} {b : TriedbBranch} {c : Children}
    (rep : Represents s d b c) : b.depth = d := by
  cases d with
  | zero => exact rep.elim
  | succ d => exact rep.1

@[simp] theorem represents_setHash {s : Triedb} {d : ℕ} {b : TriedbBranch} {c : Children}
    {h : Bytes} : Represents s d (b.setHash h) c ↔ Represents s d b c := by
  cases d with
  | zero => rfl
  | succ d => rfl

@[simp] theorem represents_addNumEntries {s : Triedb} {d : ℕ} {b : TriedbBranch} {c : Children}
    {dn : UInt64} : Represents s d (b.addNumEntries dn) c ↔ Represents s d b c := by
  cases d with
  | zero => rfl
  | succ d => rfl

@[simp] theorem represents_subNumEntries {s : Triedb} {d : ℕ} {b : TriedbBranch} {c : Children}
    {dn : UInt64} : Represents s d (b.subNumEntries dn) c ↔ Represents s d b c := by
  cases d with
  | zero => rfl
  | succ d => rfl

theorem Represents.change {s : Triedb} {d : ℕ} {b b' : TriedbBranch} {c : Children}
    (rep : Represents s (d + 1) b c) {i : Fin 32} {slot : Slot} {t : Tree 32 Bytes}
    (depth : b'.depth = b.depth) (full : b'.Full)
    (slots : ∀ j, b'.slot j = if j = i then slot else b.slot j)
    (here : SlotRepresents s (Represents s d) slot t) :
    Represents s (d + 1) b' (Function.update c i t) := by
  refine ⟨depth.trans rep.1, full, fun j => ?_⟩
  rw [slots j, Function.update_apply]
  split
  · exact here
  · exact rep.2.2 j

theorem represents_fresh (s : Triedb) {d : ℕ} (small : d + 1 < 256) :
    Represents s (d + 1) (({} : TriedbBranch).setDepth (d + 1)) fun _ => .empty := by
  refine ⟨Nat.mod_eq_of_lt small, full_fresh _, fun i => ?_⟩
  rw [slot_fresh]
  rfl

section Bind

variable {α β : Type}

theorem bind_ok {x : Access α} {f : α → Access β} {s s' : Triedb} {a : α} (ran : x s = .ok a s') :
    (x >>= f) s = f a s' := by
  simp only [bind, EStateM.bind, ran]

theorem bind_error {x : Access α} {f : α → Access β} {s s' : Triedb} {e : Error}
    (ran : x s = .error e s') : (x >>= f) s = .error e s' := by
  simp only [bind, EStateM.bind, ran]

theorem mapM_ok {f : α → Access β} {s : Triedb} {l : List α}
    (each : ∀ a ∈ l, ∃ x, f a s = .ok x s) : ∃ xs, l.mapM f s = .ok xs s := by
  induction l with
  | nil => exact ⟨[], rfl⟩
  | cons a l ih =>
      obtain ⟨x, ran⟩ := each a (by simp)
      obtain ⟨xs, rest⟩ := ih fun b member => each b (by simp [member])
      refine ⟨x :: xs, ?_⟩
      rw [List.mapM_cons, bind_ok ran, bind_ok rest]
      rfl

end Bind

theorem getBranch_ok {s : Triedb} {p : ℕ} {b : TriedbBranch} (stored : s.nodes p = some (.branch b)) :
    getBranch p s = .ok b s := by
  simp only [getBranch, stored]

theorem getLeaf_ok {s : Triedb} {p : ℕ} {l : TriedbLeaf} (stored : s.nodes p = some (.leaf l)) :
    getLeaf p s = .ok l s := by
  simp only [getLeaf, stored]

section Append

variable (P : TriedbParams)

theorem le_appendOffset (lastOffset numBytes : ℕ) :
    lastOffset ≤ appendOffset P lastOffset numBytes := by
  simp only [appendOffset]
  split
  · exact ((Nat.div_lt_iff_lt_mul P.bucketSize_pos).mp (Nat.lt_succ_self _)).le
  · exact le_rfl

theorem extends_appendNode {s : Triedb} (fresh : Fresh s) (node : Node) (numBytes : ℕ) :
    Extends s (appendNode P node numBytes s) := by
  refine ⟨fun p n stored => ?_, rfl, rfl, rfl⟩
  simp only [appendNode]
  rw [Function.update_of_ne]
  · exact stored
  · rintro rfl
    rw [fresh _ (le_appendOffset P _ _)] at stored
    cases stored

theorem fresh_appendNode {s : Triedb} (fresh : Fresh s) (node : Node) {numBytes : ℕ}
    (pos : 0 < numBytes) : Fresh (appendNode P node numBytes s) := by
  intro p beyond
  simp only [appendNode] at beyond ⊢
  have := le_appendOffset P s.lastOffset numBytes
  rw [Function.update_of_ne (by omega)]
  exact fresh p (by omega)

theorem serializationSize_pos (b : TriedbBranch) : 0 < b.serializationSize := by
  simp only [TriedbBranch.serializationSize]
  omega

theorem nodes_appendNode (s : Triedb) (node : Node) (numBytes : ℕ) :
    (appendNode P node numBytes s).nodes (appendOffset P s.lastOffset numBytes) = some node := by
  simp [appendNode]

/-- Outcome of appending a branch that represents `c` at depth `d`. -/
structure Stored (s s' : Triedb) (d : ℕ) (c : Children) (b : TriedbBranch) (p : ℕ) : Prop where
  grows : Extends s s'
  fresh : Fresh s'
  node : s'.nodes p = some (.branch b)
  rep : Represents s' d b c

theorem Stored.after {s₀ s s' : Triedb} {d : ℕ} {c : Children} {b : TriedbBranch} {p : ℕ}
    (before : Extends s₀ s) (stored : Stored s s' d c b p) : Stored s₀ s' d c b p :=
  { stored with grows := before.trans stored.grows }

theorem branchHasher_ok {s : Triedb} {d : ℕ} {b : TriedbBranch} {c : Children}
    (rep : Represents s d b c) : ∃ h, branchHasher P b s = .ok (b.setHash h) s := by
  cases d with
  | zero => exact rep.elim
  | succ d =>
      unfold branchHasher
      split
      · exact ⟨[], rfl⟩
      · have each : ∀ i ∈ maskLoop 32 b.mask,
            ∃ x, childHash b (Fin.ofNat 32 i) s = .ok x s := by
          intro i _
          generalize Fin.ofNat 32 i = j
          have slot := rep.2.2 j
          unfold childHash
          cases here : b.slot j with
          | empty =>
              rw [slot_eq_empty_iff] at here
              simp only [isBranch_eq, isLeaf_eq, here]
              exact ⟨[], rfl⟩
          | leaf p =>
              obtain ⟨occupied, bit, pointer⟩ := of_slot_leaf here
              rw [here] at slot
              obtain ⟨l, stored, _⟩ := slot
              simp only [isBranch_eq, isLeaf_eq, occupied, bit, pointer]
              exact ⟨l.hash, bind_ok (getLeaf_ok stored)⟩
          | branch p =>
              obtain ⟨occupied, bit, pointer⟩ := of_slot_branch here
              rw [here] at slot
              obtain ⟨b', _, stored, _⟩ := slot
              simp only [isBranch_eq, occupied, bit, pointer]
              exact ⟨b'.hash, bind_ok (getBranch_ok stored)⟩
        obtain ⟨hashes, ran⟩ := mapM_ok each
        exact ⟨_, bind_ok ran⟩

theorem finishBranch_ok {s : Triedb} {d : ℕ} {b : TriedbBranch} {c : Children} (fresh : Fresh s)
    (rep : Represents s d b c) :
    ∃ b' p s', finishBranch P b s = .ok (b', p) s' ∧ Stored s s' d c b' p := by
  obtain ⟨h, hashed⟩ := branchHasher_ok P rep
  have grows := extends_appendNode P fresh (.branch (b.setHash h)) (b.setHash h).serializationSize
  refine ⟨b.setHash h, _, _, bind_ok hashed, grows, ?_, nodes_appendNode P _ _ _, ?_⟩
  · exact fresh_appendNode P fresh _ (serializationSize_pos _)
  · exact represents_setHash.mpr (rep.mono grows.nodes)

theorem appendLeafNode_ok {s : Triedb} (fresh : Fresh s) (l : TriedbLeaf)
    (small : leafSerializationSize l < LEAF_MAX_SIZE_IN_BYTES) :
    ∃ p s', appendLeafNode P l s = .ok p s' ∧ Extends s s' ∧ Fresh s' ∧
      s'.nodes p = some (.leaf l) := by
  refine ⟨_, _, if_pos small, extends_appendNode P fresh _ _, ?_, nodes_appendNode P _ _ _⟩
  exact fresh_appendNode P fresh _ (by simp only [leafSerializationSize]; omega)

theorem appendLeafNode_error (s : Triedb) (l : TriedbLeaf)
    (big : ¬ leafSerializationSize l < LEAF_MAX_SIZE_IN_BYTES) :
    ∃ s', appendLeafNode P l s = .error .assertion s' :=
  ⟨_, if_neg big⟩

end Append

end Epilog.Db.Representation
