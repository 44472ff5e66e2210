/- Module: Epilog/Lib/CompactTree
   digest: Adding and removing keys in radix trees whose branches have two leaves or more. -/

import Mathlib.Algebra.Order.BigOperators.Group.Finset
import Epilog.Lib.TreeShape

set_option autoImplicit false

namespace Epilog.Lib.CompactTree

open Epilog.Lib.DigitTree Epilog.Lib.DigitTree.Tree Epilog.Lib.TreeShape

universe u

variable {n : ℕ} {α : Type u}

/-- The tree with these children; a lone leaf takes the place of its branch. -/
def shrink (c : Fin n → Tree n α) : Tree n α :=
  match (branch c).leaves with
  | [] => .empty
  | [(k, v)] => .leaf k v
  | _ => .branch c

theorem leaves_shrink (c : Fin n → Tree n α) : (shrink c).leaves = (branch c).leaves := by
  unfold shrink
  split
  · rename_i none_left
    rw [none_left, leaves_empty]
  · rename_i k v one_left
    rw [one_left, leaves_leaf]
  · rfl

theorem shrink_of_two_le {c : Fin n → Tree n α} (many : 2 ≤ size (branch c)) :
    shrink c = .branch c := by
  unfold shrink
  split
  · rename_i none_left
    rw [size, none_left] at many
    exact absurd many (by simp)
  · rename_i k v one_left
    rw [size, one_left] at many
    exact absurd many (by simp)
  · rfl

theorem shrink_childless {c : Fin n → Tree n α} (childless : ∀ i, c i = .empty) :
    shrink c = .empty := by
  have none_left : (branch c).leaves = [] := by
    rw [leaves, List.flatMap_eq_nil_iff]
    intro i _
    rw [childless i, leaves_empty]
  rw [shrink, none_left]

/-- A leaf without siblings -/
theorem shrink_single {c : Fin n → Tree n α} {i : Fin n} {k : ℕ} {v : α} (here : c i = .leaf k v)
    (alone : ∀ j ≠ i, c j = .empty) : shrink c = .leaf k v := by
  have single : c = Function.update (fun _ => .empty) i (.leaf k v) := by
    funext j
    rw [Function.update_apply]
    split
    · rename_i same
      rw [same, here]
    · rename_i other
      exact alone j other
  have one : size (branch c) = 1 := by
    rw [single, size_single, size_leaf]
  have member : (k, v) ∈ (branch c).leaves := by
    rw [mem_leaves_branch]
    exact ⟨i, by rw [here, leaves_leaf]; exact List.mem_singleton_self _⟩
  obtain ⟨x, only⟩ := List.length_eq_one_iff.1 one
  rw [only, List.mem_singleton] at member
  subst member
  rw [shrink, only]

theorem compact_shrink {c : Fin n → Tree n α} (compact : ∀ i, Compact (c i)) :
    Compact (shrink c) := by
  unfold shrink
  split
  · trivial
  · trivial
  · rename_i not_none not_one
    refine ⟨?_, compact⟩
    rw [size]
    rcases few : (branch c).leaves with - | ⟨⟨k, v⟩, - | ⟨y, l⟩⟩
    · exact absurd few not_none
    · exact absurd few (not_one k v)
    · simp

/-- In a compact tree a child that is not empty has a leaf. -/
theorem one_le_size {t : Tree n α} (compact : Compact t) (occupied : t ≠ .empty) : 1 ≤ size t := by
  cases t with
  | empty => exact absurd rfl occupied
  | leaf k v => exact (size_leaf k v).ge
  | branch c => exact le_trans one_le_two compact.1

theorem size_child_le (c : Fin n → Tree n α) (i : Fin n) : size (c i) ≤ size (branch c) := by
  rw [size_branch]
  exact Finset.single_le_sum (f := fun j => size (c j)) (fun j _ => Nat.zero_le (size (c j)))
    (Finset.mem_univ i)

/-- A branch child stays below its parent. -/
theorem shrink_branch {c c' : Fin n → Tree n α} (compact : ∀ i, Compact (c i)) {i : Fin n}
    (here : c i = .branch c') : shrink c = .branch c := by
  have large := compact i
  rw [here] at large
  have below := size_child_le c i
  rw [here] at below
  exact shrink_of_two_le (le_trans large.1 below)

/-- Two children keep their parent. -/
theorem shrink_siblings {c : Fin n → Tree n α} (compact : ∀ i, Compact (c i)) {i j : Fin n}
    (other : j ≠ i) (left : c i ≠ .empty) (right : c j ≠ .empty) : shrink c = .branch c := by
  apply shrink_of_two_le
  rw [size_branch]
  have pair : size (c i) + size (c j) ≤ ∑ m, size (c m) := by
    rw [← Finset.sum_pair (f := fun m => size (c m)) (Ne.symm other)]
    exact Finset.sum_le_univ_sum_of_nonneg fun m => Nat.zero_le _
  have one := one_le_size (compact i) left
  have two := one_le_size (compact j) right
  omega

theorem fits_update {c : Fin n → Tree n α} {d q : ℕ} (fits : (branch c).Fits (d + 1) q)
    {i : Fin n} {t : Tree n α} (fit : t.Fits d (q * n + i.val)) :
    (branch (Function.update c i t)).Fits (d + 1) q := by
  intro j
  rw [Function.update_apply]
  split
  · rename_i same
    rw [same]
    exact fit
  · exact fits j

section Digits

variable [NeZero n]

theorem lookup_eq_of_leaves {t t' : Tree n α} {d q : ℕ} (fits : t.Fits d q) (fits' : t'.Fits d q)
    (same : t.leaves = t'.leaves) (key : ℕ) : t.lookup d key = t'.lookup d key := by
  apply Option.ext
  intro v
  rw [← mem_leaves_iff fits, ← mem_leaves_iff fits', same]

theorem fits_shrink {c : Fin n → Tree n α} {d q : ℕ} (fits : (branch c).Fits d q) :
    (shrink c).Fits d q := by
  unfold shrink
  split
  · trivial
  · rename_i k v one_left
    exact key_div_of_mem_leaves fits (by rw [one_left]; exact List.mem_singleton_self _)
  · exact fits

theorem lookup_shrink {c : Fin n → Tree n α} {d q : ℕ} (fits : (branch c).Fits d q) (key : ℕ) :
    (shrink c).lookup d key = (branch c).lookup d key :=
  lookup_eq_of_leaves (fits_shrink fits) fits (leaves_shrink c) key

/-- Add a key below a branch of depth `d`; a key that is there keeps its value. -/
def add (d : ℕ) (c : Fin n → Tree n α) (key : ℕ) (v : α) : Fin n → Tree n α :=
  if ((branch c).lookup d key).isSome then c else put d c key v

/-- Remove a key below a branch of depth `d`; a branch left with one leaf is replaced by it. -/
def remove : ℕ → (Fin n → Tree n α) → ℕ → (Fin n → Tree n α)
  | 0, c, _ => c
  | d + 1, c, key =>
      match c (digit n d key) with
      | .empty => c
      | .leaf k _ => if k = key then Function.update c (digit n d key) .empty else c
      | .branch c' => Function.update c (digit n d key) (shrink (remove d c' key))

section Add

variable {d q key : ℕ} {c : Fin n → Tree n α} {v : α}

theorem add_empty (here : c (digit n d key) = .empty) :
    add (d + 1) c key v = Function.update c (digit n d key) (.leaf key v) := by
  rw [add, lookup_branch, here, lookup_empty, if_neg (by simp), put_succ, here]

theorem add_same {w : α} (here : c (digit n d key) = .leaf key w) : add (d + 1) c key v = c := by
  rw [add, lookup_branch, here, lookup_leaf, if_pos rfl, Option.isSome_some, if_pos rfl]

/-- A leaf in the way moves below a new branch. -/
theorem add_other {k : ℕ} {w : α} (here : c (digit n (d + 1) key) = .leaf k w) (other : k ≠ key) :
    add (d + 2) c key v = Function.update c (digit n (d + 1) key)
      (.branch (add (d + 1) (Function.update (fun _ => .empty) (digit n d k) (.leaf k w))
        key v)) := by
  rw [add, lookup_branch, here, lookup_leaf, if_neg (Ne.symm other), if_neg (by simp), put_succ,
    here, add, lookup_single, if_neg (Ne.symm other), if_neg (by simp)]
  simp only [if_neg other, Nat.add_sub_cancel]

theorem add_branch {c' : Fin n → Tree n α} (here : c (digit n d key) = .branch c') :
    add (d + 1) c key v = Function.update c (digit n d key) (.branch (add d c' key v)) := by
  rw [add, lookup_branch, here, add]
  split
  · rw [← here, Function.update_eq_self]
  · rw [put_succ, here]

theorem fits_add (fits : (branch c).Fits d q) (below : key / n ^ d = q) :
    (branch (add d c key v)).Fits d q := by
  unfold add
  split
  · exact fits
  · exact fits_put fits below

theorem compact_add (compact : ∀ i, Compact (c i)) (fits : (branch c).Fits d q)
    (below : key / n ^ d = q) (i : Fin n) : Compact (add d c key v i) := by
  unfold add
  split
  · exact compact i
  · exact compact_put compact fits below i

/-- The first value of a key stays. -/
theorem lookup_add (fits : (branch c).Fits (d + 1) q) (below : key / n ^ (d + 1) = q) (key' : ℕ) :
    (branch (add (d + 1) c key v)).lookup (d + 1) key' =
      if key' = key then some (((branch c).lookup (d + 1) key).getD v)
      else (branch c).lookup (d + 1) key' := by
  unfold add
  split
  · rename_i found
    obtain ⟨w, there⟩ := Option.isSome_iff_exists.1 found
    split
    · rename_i same
      rw [same, there, Option.getD_some]
    · rfl
  · rename_i missing
    rw [Option.not_isSome_iff_eq_none] at missing
    rw [lookup_put fits below, missing, Option.getD_none]

end Add

section Remove

variable {c : Fin n → Tree n α}

theorem remove_branch {d key : ℕ} {c' : Fin n → Tree n α} (here : c (digit n d key) = .branch c') :
    remove (d + 1) c key =
      Function.update c (digit n d key) (shrink (remove d c' key)) := by
  rw [remove, here]

theorem fits_remove {d q key : ℕ} (fits : (branch c).Fits d q) :
    (branch (remove d c key)).Fits d q := by
  induction d generalizing q c with
  | zero => exact fits
  | succ d ih =>
    have child := fits (digit n d key)
    unfold remove
    cases slot : c (digit n d key) with
    | empty => exact fits
    | leaf k w =>
      dsimp only
      split
      · exact fits_update fits trivial
      · exact fits
    | branch c' =>
      rw [slot] at child
      exact fits_update fits (fits_shrink (ih child))

theorem compact_remove {d key : ℕ} (compact : ∀ i, Compact (c i)) (i : Fin n) :
    Compact (remove d c key i) := by
  induction d generalizing c i with
  | zero => exact compact i
  | succ d ih =>
    have child := compact (digit n d key)
    unfold remove
    cases slot : c (digit n d key) with
    | empty => exact compact i
    | leaf k w =>
      dsimp only
      split
      · rw [Function.update_apply]
        split
        · trivial
        · exact compact i
      · exact compact i
    | branch c' =>
      rw [slot] at child
      dsimp only
      rw [Function.update_apply]
      split
      · exact compact_shrink fun j => ih child.2 j
      · exact compact i

/-- Removing a key changes exactly that key. -/
theorem lookup_remove {d q key : ℕ} (fits : (branch c).Fits d q) (key' : ℕ) :
    (branch (remove d c key)).lookup d key' =
      if key' = key then none else (branch c).lookup d key' := by
  induction d generalizing q c with
  | zero => exact fits.elim
  | succ d ih =>
    have child := fits (digit n d key)
    rw [lookup_branch, lookup_branch]
    by_cases same : digit n d key' = digit n d key
    · rw [same]
      unfold remove
      cases slot : c (digit n d key) with
      | empty => simp [slot]
      | leaf k w =>
        dsimp only
        by_cases keyEq : k = key
        · rw [if_pos keyEq, Function.update_self, lookup_empty, lookup_leaf, keyEq]
          split <;> rfl
        · rw [if_neg keyEq, slot, lookup_leaf]
          by_cases other : key' = k
          · rw [if_pos other, if_neg (by omega)]
          · rw [if_neg other, ite_self]
      | branch c' =>
        rw [slot] at child
        dsimp only
        rw [Function.update_self, lookup_shrink (fits_remove child), ih child]
    · have other : key' ≠ key := by
        rintro rfl
        exact same rfl
      rw [if_neg other]
      unfold remove
      cases slot : c (digit n d key) with
      | empty => rfl
      | leaf k w =>
        dsimp only
        split
        · rw [Function.update_of_ne same]
        · rfl
      | branch c' =>
        dsimp only
        rw [Function.update_of_ne same]

end Remove

end Digits

end Epilog.Lib.CompactTree
