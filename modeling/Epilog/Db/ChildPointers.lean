/- Module: Epilog/Db/ChildPointers
   source: src/src/db/triedb.hpp (triedb_branch)
   digest: The packed pointers of a branch over a run of changes to its slots. -/

import Epilog.Db.Branch
import Epilog.Lib.StepRuns

set_option autoImplicit false

namespace Epilog.Db.ChildPointers

open Epilog.Lib.PackedSlots Epilog.Lib.StepRuns Epilog.Db.Branch

section Model

/-- The changes to the slots of a branch; a branch may go on as its copy. -/
inductive Event
  | setChildPointer (sub_index : Fin 32) (ptr : ℕ)
  | setLeaf (sub_index : Fin 32)
  | setBranch (sub_index : Fin 32)
  | setEmpty (sub_index : Fin 32)
  | copy

def change (b : TriedbBranch) : Event → TriedbBranch
  | .setChildPointer i p => b.setChildPointer i p
  | .setLeaf i => b.setLeaf i
  | .setBranch i => b.setBranch i
  | .setEmpty i => b.setEmpty i
  | .copy => b.copy

/-- The pointer that was set last for each slot, if the slot was not emptied since -/
abbrev Pointers := Fin 32 → Option ℕ

def remember (m : Pointers) : Event → Pointers
  | .setChildPointer i p => Function.update m i (some p)
  | .setEmpty i => Function.update m i none
  | _ => m

def step (s : TriedbBranch × Pointers) (e : Event) : TriedbBranch × Pointers :=
  (change s.1 e, remember s.2 e)

/-- The array has the pointers of the slots that are not empty, in slot order, and a slot that is
not empty finds the pointer that was set for it. -/
structure Right (s : TriedbBranch × Pointers) : Prop where
  slots : ∀ i, s.1.isEmpty i = (s.2 i).isNone
  stored : s.1.ptr.take s.1.numChildren = (List.finRange 32).filterMap s.2
  found : ∀ i p, s.2 i = some p → s.1.getChildPointer i = p

/-- A slot is emptied that has a pointer. -/
def Meets (s : TriedbBranch × Pointers) : Event → Prop
  | .setEmpty i => s.1.isEmpty i = false
  | _ => True

/-- The pointers as they are packed -/
structure Holds (s : TriedbBranch × Pointers) : Prop where
  full : s.1.Full
  pointers : ∀ i, s.1.pointer i = s.2 i

end Model

section Runs

variable {s : TriedbBranch × Pointers}

theorem Holds.occupied (holds : Holds s) (i : Fin 32) :
    s.1.mask.getLsbD i.val = (s.2 i).isSome := by
  rw [← holds.pointers i, TriedbBranch.pointer, slot]
  cases used : s.1.mask.getLsbD i.val with
  | false => rfl
  | true =>
    have inside : rank s.1.mask.getLsbD i.val < s.1.ptr.length :=
      (rank_lt used i.isLt).trans_le holds.full
    rw [if_pos rfl, List.getElem?_eq_getElem inside]
    rfl

theorem packed_take_eq {used : ℕ → Bool} {packed : List ℕ} {w : ℕ} (full : Packed w used packed) :
    packed.take (rank used w) = (List.range w).filterMap (slot used packed) := by
  induction w with
  | zero => rfl
  | succ w ih =>
    have less : rank used w ≤ rank used (w + 1) := rank_le (Nat.le_succ w)
    rw [List.range_succ, List.filterMap_append, ← ih (less.trans full), List.filterMap_cons,
      List.filterMap_nil, slot, rank_succ]
    cases occupied : used w with
    | false => simp
    | true =>
      have inside : rank used w < packed.length := by
        have next := rank_lt occupied (Nat.lt_succ_self w)
        exact next.trans_le full
      rw [if_pos rfl, if_pos rfl, List.take_add_one, List.getElem?_eq_getElem inside]
      rfl

theorem Holds.right (holds : Holds s) : Right s where
  slots := fun i => by
    rw [isEmpty_eq, holds.occupied]
    cases s.2 i <;> rfl
  stored := by
    have same : s.2 = slot s.1.mask.getLsbD s.1.ptr ∘ Fin.val :=
      funext fun i => (holds.pointers i).symm
    rw [numChildren_eq, packed_take_eq holds.full, same, ← List.filterMap_map,
      List.map_coe_finRange_eq_range]
  found := fun i p at_ => by
    have used : s.1.mask.getLsbD i.val = true := by rw [holds.occupied, at_]; rfl
    rw [getChildPointer_eq _ i used, holds.pointers, at_]
    rfl

theorem Holds.step (holds : Holds s) {e : Event} (met : Meets s e) : Holds (step s e) := by
  cases e with
  | setChildPointer i p =>
    refine ⟨full_set_child_pointer holds.full i p, fun j => ?_⟩
    refine (pointer_set_child_pointer holds.full i j p).trans ?_
    rw [holds.pointers]
    exact (Function.update_apply s.2 i (some p) j).symm
  | setLeaf i => exact ⟨holds.full, holds.pointers⟩
  | setBranch i => exact ⟨holds.full, holds.pointers⟩
  | setEmpty i =>
    have occupied : s.1.mask.getLsbD i.val = true := by
      have notEmpty : s.1.isEmpty i = false := met
      rw [isEmpty_eq] at notEmpty
      simpa using notEmpty
    refine ⟨full_set_empty holds.full occupied, fun j => ?_⟩
    refine (pointer_set_empty holds.full occupied j).trans ?_
    rw [holds.pointers]
    exact (Function.update_apply s.2 i none j).symm
  | copy => exact ⟨copy_full holds.full, fun j => (pointer_copy _ j).trans (holds.pointers j)⟩

/-- A branch with the pointers that were set for its slots so far -/
def begun (b : TriedbBranch) : TriedbBranch × Pointers := (b, b.pointer)

/-- As long as only slots that have a pointer are emptied, the pointers are right. -/
theorem pointers_right (b : TriedbBranch) (full : b.Full) (events : List Event)
    (met : EachStep step Meets (begun b) events) : Throughout step Right (begun b) events :=
  throughout_of_invariant (fun _ _ holds met => holds.step met) (fun _ holds => holds.right)
    (⟨full, fun _ => rfl⟩ : Holds (begun b)) met

theorem pointers_right_two : Throughout step Right (begun {})
    [.setChildPointer 31 7, .setLeaf 31, .setChildPointer 5 9, .setEmpty 31, .copy] :=
  pointers_right {} (full_fresh 0) _
    ⟨trivial, trivial, trivial, by unfold Meets; decide, trivial, trivial⟩

/-- Emptying slot 3, which is empty, takes the pointer of slot 5. -/
theorem empty_slot_emptied :
    ¬ Throughout step Right (begun {}) [.setChildPointer 5 100, .setEmpty 3] := by
  intro all
  have found := all.last.found 5 100 rfl
  revert found
  decide

end Runs

end Epilog.Db.ChildPointers
