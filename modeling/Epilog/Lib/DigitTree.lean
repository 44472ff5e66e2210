/- Module: Epilog/Lib/DigitTree
   digest: Radix trees keyed by the base-n digits of a number, as maps with sorted leaves. -/

import Mathlib.Data.List.FinRange
import Mathlib.Data.Nat.Basic
import Mathlib.Tactic.Ring
import Mathlib.Logic.Function.Basic

set_option autoImplicit false

namespace Epilog.Lib.DigitTree

universe u

/-- A tree whose branches split on one base-`n` digit and whose leaves carry the whole key. -/
inductive Tree (n : ℕ) (α : Type u) : Type u
  | empty : Tree n α
  | leaf (key : ℕ) (val : α) : Tree n α
  | branch (child : Fin n → Tree n α) : Tree n α

variable {n : ℕ} {α : Type u}

/-- The digit a branch standing above `d` lower digits splits on. -/
def digit (n : ℕ) [NeZero n] (d key : ℕ) : Fin n := Fin.ofNat n (key / n ^ d)

@[simp] theorem digit_val [NeZero n] (d key : ℕ) :
    (digit n d key).val = key / n ^ d % n := rfl

namespace Tree

def isEmpty : Tree n α → Bool
  | empty => true
  | _ => false

@[simp] theorem isEmpty_iff (t : Tree n α) : t.isEmpty = true ↔ t = empty := by
  cases t <;> simp [isEmpty]

/-- Descend along the digits of the key and compare the whole key at the leaf. -/
def lookup [NeZero n] : Tree n α → ℕ → ℕ → Option α
  | empty, _, _ => none
  | leaf k v, _, key => if key = k then some v else none
  | branch _, 0, _ => none
  | branch c, d + 1, key => (c (digit n d key)).lookup d key

/-- All leaves from left to right. -/
def leaves : Tree n α → List (ℕ × α)
  | empty => []
  | leaf k v => [(k, v)]
  | branch c => (List.finRange n).flatMap fun i => (c i).leaves

/-- Every key below stands under the prefix `q` of its digits from position `d` up. -/
def Fits : Tree n α → ℕ → ℕ → Prop
  | empty, _, _ => True
  | leaf k _, d, q => k / n ^ d = q
  | branch _, 0, _ => False
  | branch c, d + 1, q => ∀ i : Fin n, (c i).Fits d (q * n + i.val)

theorem leaf_ne_empty (k : ℕ) (v : α) : (leaf k v : Tree n α) ≠ empty := by rintro ⟨⟩

theorem branch_ne_empty (c : Fin n → Tree n α) : branch c ≠ empty := by rintro ⟨⟩

@[simp] theorem leaves_empty : (empty : Tree n α).leaves = [] := rfl

@[simp] theorem leaves_leaf (k : ℕ) (v : α) : (leaf k v : Tree n α).leaves = [(k, v)] := rfl

theorem mem_leaves_branch (c : Fin n → Tree n α) (x : ℕ × α) :
    x ∈ (branch c).leaves ↔ ∃ i, x ∈ (c i).leaves := by
  simp [leaves]

section Lookup

variable [NeZero n]

@[simp] theorem lookup_empty (d key : ℕ) : (empty : Tree n α).lookup d key = none := rfl

@[simp] theorem lookup_leaf (k : ℕ) (v : α) (d key : ℕ) :
    (leaf k v : Tree n α).lookup d key = if key = k then some v else none := rfl

@[simp] theorem lookup_branch (c : Fin n → Tree n α) (d key : ℕ) :
    (branch c).lookup (d + 1) key = (c (digit n d key)).lookup d key := rfl

/-- Whatever is found stands in a leaf with exactly that key. -/
theorem mem_leaves_of_lookup {t : Tree n α} {d key : ℕ} {v : α}
    (found : t.lookup d key = some v) : (key, v) ∈ t.leaves := by
  induction t generalizing d with
  | empty => simp at found
  | leaf k w =>
      simp only [lookup_leaf] at found
      split at found
      · rename_i same
        simp_all
      · cases found
  | branch c ih =>
      cases d with
      | zero => simp [lookup] at found
      | succ d => exact (mem_leaves_branch c _).mpr ⟨_, ih _ found⟩

theorem key_div_of_mem_leaves {t : Tree n α} {d q key : ℕ} {v : α} (fits : t.Fits d q)
    (member : (key, v) ∈ t.leaves) : key / n ^ d = q := by
  induction t generalizing d q with
  | empty => simp at member
  | leaf k w =>
      simp only [leaves_leaf, List.mem_singleton, Prod.mk.injEq] at member
      rw [member.1]
      exact fits
  | branch c ih =>
      cases d with
      | zero => exact fits.elim
      | succ d =>
          obtain ⟨i, member⟩ := (mem_leaves_branch c _).mp member
          have below := ih i (fits i) member
          rw [pow_succ, ← Nat.div_div_eq_div_mul, below, Nat.mul_comm q n,
            Nat.mul_add_div (NeZero.pos n), Nat.div_eq_of_lt i.isLt, Nat.add_zero]

/-- A key standing under child `i` has digit `i`. -/
theorem digit_of_div {d q key : ℕ} {i : Fin n} (below : key / n ^ d = q * n + i.val) :
    digit n d key = i := by
  apply Fin.ext
  rw [digit_val, below, Nat.mul_add_mod_self_right, Nat.mod_eq_of_lt i.isLt]

theorem div_eq_of_digit {d q key : ℕ} (above : key / n ^ (d + 1) = q) :
    key / n ^ d = q * n + (digit n d key).val := by
  rw [digit_val, ← above, pow_succ, ← Nat.div_div_eq_div_mul]
  exact (Nat.div_add_mod' _ _).symm

theorem lookup_of_mem_leaves {t : Tree n α} {d q key : ℕ} {v : α} (fits : t.Fits d q)
    (member : (key, v) ∈ t.leaves) : t.lookup d key = some v := by
  induction t generalizing d q with
  | empty => simp at member
  | leaf k w =>
      simp only [leaves_leaf, List.mem_singleton, Prod.mk.injEq] at member
      simp [member.1, member.2]
  | branch c ih =>
      cases d with
      | zero => exact fits.elim
      | succ d =>
          obtain ⟨i, member⟩ := (mem_leaves_branch c _).mp member
          rw [lookup_branch, digit_of_div (key_div_of_mem_leaves (fits i) member)]
          exact ih i (fits i) member

/-- On a fitting tree lookup and the list of leaves say the same. -/
theorem mem_leaves_iff {t : Tree n α} {d q key : ℕ} {v : α} (fits : t.Fits d q) :
    (key, v) ∈ t.leaves ↔ t.lookup d key = some v :=
  ⟨lookup_of_mem_leaves fits, mem_leaves_of_lookup⟩

theorem leaves_sorted {t : Tree n α} {d q : ℕ} (fits : t.Fits d q) :
    t.leaves.Pairwise (fun x y => x.1 < y.1) := by
  induction t generalizing d q with
  | empty => simp
  | leaf k w => simp
  | branch c ih =>
      cases d with
      | zero => exact fits.elim
      | succ d =>
          simp only [leaves, List.flatMap_def]
          rw [List.pairwise_flatten]
          refine ⟨?_, ?_⟩
          · simp only [List.mem_map, forall_exists_index, and_imp]
            rintro _ i - rfl
            exact ih i (fits i)
          · rw [List.pairwise_map]
            refine (List.pairwise_lt_finRange n).imp ?_
            intro i j less x hx y hy
            have hi := key_div_of_mem_leaves (fits i) hx
            have hj := key_div_of_mem_leaves (fits j) hy
            have : x.1 / n ^ d < y.1 / n ^ d := by
              rw [hi, hj]
              exact Nat.add_lt_add_left less _
            exact Nat.lt_of_div_lt_div this

end Lookup

end Tree

open Tree

section Update

variable [NeZero n]

/-- Write a key below a branch of depth `d`, splitting a leaf that is in the way. -/
def put : ℕ → (Fin n → Tree n α) → ℕ → α → (Fin n → Tree n α)
  | 0, c, _, _ => c
  | d + 1, c, key, v =>
      Function.update c (digit n d key) <|
        match c (digit n d key) with
        | .empty => .leaf key v
        | .leaf k w =>
            if k = key then .leaf key v
            else .branch (put d (Function.update (fun _ => .empty) (digit n (d - 1) k) (.leaf k w))
              key v)
        | .branch c' => .branch (put d c' key v)

/-- Remove a key below a branch of depth `d`; a branch left without children becomes empty. -/
def erase : ℕ → (Fin n → Tree n α) → ℕ → (Fin n → Tree n α)
  | 0, c, _ => c
  | d + 1, c, key =>
      match c (digit n d key) with
      | .empty => c
      | .leaf k _ => if k = key then Function.update c (digit n d key) .empty else c
      | .branch c' =>
          Function.update c (digit n d key)
            (if ∀ i, (erase d c' key i).isEmpty then .empty else .branch (erase d c' key))

theorem put_succ (d : ℕ) (c : Fin n → Tree n α) (key : ℕ) (v : α) :
    put (d + 1) c key v = Function.update c (digit n d key)
      (match c (digit n d key) with
        | .empty => .leaf key v
        | .leaf k w =>
            if k = key then .leaf key v
            else .branch (put d (Function.update (fun _ => .empty) (digit n (d - 1) k) (.leaf k w))
              key v)
        | .branch c' => .branch (put d c' key v)) := rfl

theorem fits_single {d q k : ℕ} {w : α} (below : k / n ^ (d + 1) = q) (i : Fin n) :
    (Function.update (fun _ => (.empty : Tree n α)) (digit n d k) (.leaf k w) i).Fits d
      (q * n + i.val) := by
  by_cases same : i = digit n d k
  · subst same
    simp only [Function.update_self, Fits]
    exact div_eq_of_digit below
  · simp [Function.update_of_ne same, Fits]

theorem lookup_single (d k : ℕ) (w : α) (key : ℕ) :
    (Tree.branch (Function.update (fun _ => (.empty : Tree n α)) (digit n d k) (.leaf k w))).lookup
      (d + 1) key = if key = k then some w else none := by
  rw [lookup_branch]
  by_cases same : digit n d key = digit n d k
  · rw [same, Function.update_self, lookup_leaf]
  · rw [Function.update_of_ne same, lookup_empty, if_neg]
    rintro rfl
    exact same rfl

theorem fits_put {d q key : ℕ} {c : Fin n → Tree n α} {v : α} (fits : (Tree.branch c).Fits d q)
    (below : key / n ^ d = q) : (Tree.branch (put d c key v)).Fits d q := by
  induction d generalizing q c with
  | zero => exact fits
  | succ d ih =>
      intro i
      have here := div_eq_of_digit below
      by_cases same : i = digit n d key
      · subst same
        rw [put_succ, Function.update_self]
        have child := fits (digit n d key)
        cases slot : c (digit n d key) with
        | empty => exact here
        | leaf k w =>
            rw [slot] at child
            dsimp only
            split
            · exact here
            · rename_i other
              cases d with
              | zero =>
                  simp only [Fits, pow_zero, Nat.div_one] at child here
                  exact absurd (child.trans here.symm) other
              | succ d => exact ih (fits_single child) here
        | branch c' =>
            rw [slot] at child
            exact ih child here
      · rw [put_succ, Function.update_of_ne same]
        exact fits i

/-- Writing a key changes exactly that key. -/
theorem lookup_put {d q key : ℕ} {c : Fin n → Tree n α} {v : α}
    (fits : (Tree.branch c).Fits (d + 1) q) (below : key / n ^ (d + 1) = q) (key' : ℕ) :
    (Tree.branch (put (d + 1) c key v)).lookup (d + 1) key' =
      if key' = key then some v else (Tree.branch c).lookup (d + 1) key' := by
  induction d generalizing q c with
  | zero =>
      rw [lookup_branch, lookup_branch, put_succ]
      by_cases same : digit n 0 key' = digit n 0 key
      · have child := fits (digit n 0 key)
        have here := div_eq_of_digit below
        rw [same, Function.update_self]
        cases slot : c (digit n 0 key) with
        | empty => simp
        | leaf k w =>
            rw [slot] at child
            simp only [Fits, pow_zero, Nat.div_one] at child here
            have : k = key := child.trans here.symm
            subst this
            simp only [if_true, lookup_leaf]
            split <;> rfl
        | branch c' =>
            rw [slot] at child
            exact child.elim
      · rw [Function.update_of_ne same, if_neg]
        rintro rfl
        exact same rfl
  | succ d ih =>
      rw [lookup_branch, lookup_branch, put_succ]
      by_cases same : digit n (d + 1) key' = digit n (d + 1) key
      · have child := fits (digit n (d + 1) key)
        have here := div_eq_of_digit below
        rw [same, Function.update_self]
        cases slot : c (digit n (d + 1) key) with
        | empty => simp
        | leaf k w =>
            rw [slot] at child
            dsimp only
            split
            · rename_i keyEq
              subst keyEq
              simp only [lookup_leaf]
              split <;> rfl
            · rw [Nat.add_sub_cancel, ih (fits_single child) here, lookup_single, lookup_leaf]
        | branch c' =>
            rw [slot] at child
            exact ih child here
      · rw [Function.update_of_ne same, if_neg]
        rintro rfl
        exact same rfl

private theorem lookup_branch_of_isEmpty {d key : ℕ} {c : Fin n → Tree n α}
    (none_left : ∀ i, (c i).isEmpty = true) : (Tree.branch c).lookup d key = none := by
  cases d with
  | zero => rfl
  | succ d => rw [lookup_branch, (isEmpty_iff _).mp (none_left _), lookup_empty]

/-- Removing a key changes exactly that key. -/
theorem lookup_erase (d key : ℕ) (c : Fin n → Tree n α) (key' : ℕ) :
    (Tree.branch (erase d c key)).lookup d key' =
      if key' = key then none else (Tree.branch c).lookup d key' := by
  induction d generalizing c with
  | zero => simp [lookup]
  | succ d ih =>
      rw [lookup_branch, lookup_branch]
      by_cases same : digit n d key' = digit n d key
      · rw [same]
        simp only [erase]
        cases slot : c (digit n d key) with
        | empty => simp [slot]
        | leaf k w =>
            dsimp only
            by_cases keyEq : k = key
            · subst keyEq
              simp only [if_true, Function.update_self, lookup_empty, lookup_leaf]
              split <;> rfl
            · rw [if_neg keyEq, slot, lookup_leaf]
              by_cases other : key' = k
              · rw [if_pos other, if_neg (by omega)]
              · rw [if_neg other, ite_self]
        | branch c' =>
            dsimp only
            rw [Function.update_self]
            have step := ih c'
            split
            · rename_i none_left
              rw [lookup_branch_of_isEmpty none_left] at step
              exact step
            · exact step
      · have other : key' ≠ key := by
          rintro rfl
          exact same rfl
        rw [if_neg other]
        simp only [erase]
        cases slot : c (digit n d key) with
        | empty => rfl
        | leaf k w =>
            dsimp only
            split
            · rw [Function.update_of_ne same]
            · rfl
        | branch c' =>
            dsimp only
            rw [Function.update_of_ne same]

theorem fits_erase {d q key : ℕ} {c : Fin n → Tree n α} (fits : (Tree.branch c).Fits d q) :
    (Tree.branch (erase d c key)).Fits d q := by
  induction d generalizing q c with
  | zero => exact fits
  | succ d ih =>
      intro i
      have child := fits i
      simp only [erase]
      cases slot : c (digit n d key) with
      | empty => exact child
      | leaf k w =>
          dsimp only
          split
          · by_cases same : i = digit n d key
            · subst same
              simp [Fits]
            · rw [Function.update_of_ne same]
              exact child
          · exact child
      | branch c' =>
          dsimp only
          by_cases same : i = digit n d key
          · subst same
            rw [Function.update_self]
            rw [slot] at child
            split
            · simp [Fits]
            · exact ih child
          · rw [Function.update_of_ne same]
            exact child

/-- A new root above a tree keeps its keys where they were. -/
theorem lookup_grow {d key : ℕ} {c : Fin n → Tree n α} (fits : (Tree.branch c).Fits d 0) :
    (Tree.branch (Function.update (fun _ => .empty) (0 : Fin n) (Tree.branch c))).lookup (d + 1) key =
      (Tree.branch c).lookup d key := by
  rw [lookup_branch]
  by_cases zero : digit n d key = 0
  · rw [zero, Function.update_self]
  · rw [Function.update_of_ne zero, lookup_empty]
    symm
    by_contra found
    obtain ⟨v, hv⟩ := Option.ne_none_iff_exists'.mp found
    have := key_div_of_mem_leaves fits (mem_leaves_of_lookup hv)
    exact zero (Fin.ext (by simp [this]))

theorem fits_grow {d : ℕ} {c : Fin n → Tree n α} (fits : (Tree.branch c).Fits d 0) :
    (Tree.branch (Function.update (fun _ => .empty) (0 : Fin n) (Tree.branch c))).Fits (d + 1) 0 := by
  intro i
  by_cases zero : i = 0
  · subst zero
    simpa using fits
  · rw [Function.update_of_ne zero]
    trivial

end Update

end Epilog.Lib.DigitTree
