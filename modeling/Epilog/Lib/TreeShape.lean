/- Module: Epilog/Lib/TreeShape
   digest: Sizes of digit trees, and the one shape that writing keys in any order leads to. -/

import Epilog.Lib.DigitTree
import Mathlib.Algebra.BigOperators.Fin

set_option autoImplicit false

namespace Epilog.Lib.TreeShape

open Epilog.Lib.DigitTree Epilog.Lib.DigitTree.Tree

universe u

variable {n : ℕ} {α : Type u}

section Size

def size (t : Tree n α) : ℕ := t.leaves.length

@[simp] theorem size_empty : size (.empty : Tree n α) = 0 := rfl

@[simp] theorem size_leaf (k : ℕ) (v : α) : size (.leaf k v : Tree n α) = 1 := rfl

theorem size_branch (c : Fin n → Tree n α) : size (.branch c) = ∑ i, size (c i) := by
  rw [size, leaves, List.length_flatMap, Fin.sum_univ_def]
  rfl

/-- Changing one child changes its share of the leaves only. -/
theorem size_update (c : Fin n → Tree n α) (i : Fin n) (t : Tree n α) :
    size (.branch (Function.update c i t)) + size (c i) = size (.branch c) + size t := by
  have split : ∀ c' : Fin n → Tree n α,
      size (.branch c') = ∑ j ∈ Finset.univ.erase i, size (c' j) + size (c' i) := by
    intro c'
    rw [size_branch, Finset.sum_erase_add _ _ (Finset.mem_univ i)]
  have others : ∑ j ∈ Finset.univ.erase i, size (Function.update c i t j) =
      ∑ j ∈ Finset.univ.erase i, size (c j) := by
    apply Finset.sum_congr rfl
    intro j member
    rw [Function.update_of_ne (Finset.ne_of_mem_erase member)]
  rw [split, split c, others, Function.update_self]
  omega

@[simp] theorem size_childless : size (.branch fun _ => .empty : Tree n α) = 0 := by
  rw [size_branch]
  exact Finset.sum_eq_zero fun _ _ => rfl

@[simp] theorem size_single (i : Fin n) (t : Tree n α) :
    size (.branch (Function.update (fun _ => .empty) i t)) = size t := by
  have := size_update (fun _ => (.empty : Tree n α)) i t
  simpa using this

theorem size_eq_zero_of_isEmpty {c : Fin n → Tree n α} (none_left : ∀ i, (c i).isEmpty = true) :
    size (.branch c) = 0 := by
  rw [size_branch]
  apply Finset.sum_eq_zero
  intro i _
  rw [(isEmpty_iff _).mp (none_left i), size_empty]

variable [NeZero n]

/-- Writing a key adds a leaf exactly when the key is new. -/
theorem size_put {d q key : ℕ} {c : Fin n → Tree n α} {v : α} (fits : (branch c).Fits (d + 1) q)
    (below : key / n ^ (d + 1) = q) :
    size (.branch (put (d + 1) c key v)) =
      size (.branch c) + if ((branch c).lookup (d + 1) key).isNone then 1 else 0 := by
  induction d generalizing q c with
  | zero =>
    have changed := size_update c (digit n 0 key)
    have child := fits (digit n 0 key)
    have here := div_eq_of_digit below
    rw [put_succ, lookup_branch]
    cases slot : c (digit n 0 key) with
    | empty =>
      have := changed (.leaf key v)
      simpa [slot] using this
    | leaf k w =>
      rw [slot] at child
      simp only [Fits, pow_zero, Nat.div_one] at child here
      have same : k = key := child.trans here.symm
      have := changed (.leaf key v)
      simpa [slot, same] using this
    | branch c' =>
      rw [slot] at child
      exact child.elim
  | succ d ih =>
    have changed := size_update c (digit n (d + 1) key)
    have child := fits (digit n (d + 1) key)
    have here := div_eq_of_digit below
    rw [put_succ, lookup_branch]
    cases slot : c (digit n (d + 1) key) with
    | empty =>
      have := changed (.leaf key v)
      simpa [slot] using this
    | leaf k w =>
      rw [slot] at child
      by_cases same : k = key
      · have := changed (.leaf key v)
        simpa [slot, same] using this
      · have step := ih (c := Function.update (fun _ => .empty) (digit n d k) (.leaf k w))
          (fits_single child) here
        have := changed (.branch (put (d + 1)
          (Function.update (fun _ => .empty) (digit n d k) (.leaf k w)) key v))
        rw [step, lookup_single, if_neg (Ne.symm same), size_single, slot] at this
        simp only [same, if_false, Nat.add_sub_cancel, lookup_leaf, if_neg (Ne.symm same)]
        simp only [size_leaf, Option.isNone_none, if_true] at this ⊢
        omega
    | branch c' =>
      rw [slot] at child
      have step := ih child here
      have := changed (.branch (put (d + 1) c' key v))
      rw [step, slot] at this
      simp only [lookup_branch] at this ⊢
      omega

/-- Removing a key takes a leaf away when the key was there. -/
theorem size_erase (d key : ℕ) (c : Fin n → Tree n α) :
    size (.branch (erase d c key)) + (if ((branch c).lookup d key).isSome then 1 else 0) =
      size (.branch c) := by
  induction d generalizing c with
  | zero => simp [erase, lookup]
  | succ d ih =>
    have changed := size_update c (digit n d key)
    rw [lookup_branch]
    simp only [erase]
    cases slot : c (digit n d key) with
    | empty => simp
    | leaf k w =>
      by_cases same : k = key
      · have := changed .empty
        simpa [slot, same] using this
      · simp [same, Ne.symm same]
    | branch c' =>
      have step := ih c'
      dsimp only
      split
      · rename_i none_left
        have := changed .empty
        rw [size_eq_zero_of_isEmpty none_left] at step
        rw [slot] at this
        simp only [size_empty] at this
        omega
      · have := changed (.branch (erase d c' key))
        rw [slot] at this
        omega

end Size

section Split

variable [NeZero n]

/-- The path of the key ends at a leaf with another key. -/
def splits : ℕ → (Fin n → Tree n α) → ℕ → Bool
  | 0, _, _ => false
  | d + 1, c, key =>
      match c (digit n d key) with
      | .empty => false
      | .leaf k _ => k ≠ key
      | .branch c' => splits d c' key

end Split

section Growth

variable [NeZero n]

/-- The children of a branch put on top of a tree. -/
def lift (c : Fin n → Tree n α) : Fin n → Tree n α :=
  Function.update (fun _ => .empty) 0 (.branch c)

@[simp] theorem size_lift (c : Fin n → Tree n α) : size (.branch (lift c)) = size (.branch c) :=
  size_single 0 _

/-- Levels put on top of a tree. -/
inductive Grown : ℕ → (Fin n → Tree n α) → ℕ → (Fin n → Tree n α) → Prop
  | refl (d : ℕ) (c : Fin n → Tree n α) : Grown d c d c
  | lift {d d' : ℕ} {c c' : Fin n → Tree n α} (more : Grown (d + 1) (lift c) d' c') :
      Grown d c d' c'

variable {d d' : ℕ} {c c' : Fin n → Tree n α}

theorem Grown.le (grown : Grown d c d' c') : d ≤ d' := by
  induction grown with
  | refl d c => exact le_rfl
  | lift more ih => omega

theorem Grown.size_eq (grown : Grown d c d' c') : size (.branch c') = size (.branch c) := by
  induction grown with
  | refl d c => rfl
  | lift more ih => exact ih.trans (size_lift _)

theorem Grown.fits (grown : Grown d c d' c') (fits : (branch c).Fits d 0) :
    (branch c').Fits d' 0 := by
  induction grown with
  | refl d c => exact fits
  | lift more ih => exact ih (fits_grow fits)

theorem Grown.lookup_eq (grown : Grown d c d' c') (fits : (branch c).Fits d 0) (key : ℕ) :
    (branch c').lookup d' key = (branch c).lookup d key := by
  induction grown with
  | refl d c => rfl
  | lift more ih => exact (ih (fits_grow fits)).trans (lookup_grow fits)

/-- A key that was too large for the tree before it grew meets no leaf on its path. -/
theorem Grown.splits_eq_false (grown : Grown d c d' c') (less : d < d') {key : ℕ}
    (inside : key / n ^ d' = 0) (high : key / n ^ (d' - 1) ≠ 0) : splits d' c' key = false := by
  induction grown with
  | refl d c => omega
  | lift more ih =>
    rename_i d d' c c'
    by_cases further : d + 1 < d'
    · exact ih further inside high
    · cases more with
      | refl =>
        have top : digit n d key ≠ 0 := by
          intro zero
          have val := congrArg Fin.val zero
          have below : key / n ^ d < n := by
            rw [Nat.div_eq_zero_iff_lt (Nat.pow_pos (NeZero.pos n)), pow_succ] at inside
            exact Nat.div_lt_of_lt_mul inside
          rw [digit_val, Nat.mod_eq_of_lt below] at val
          exact high val
        simp [splits, TreeShape.lift, Function.update_of_ne top]
      | lift more' => exact absurd more'.le (by omega)

end Growth

section Tidy

/-- No branch below is left without children. -/
def Filled : Tree n α → Prop
  | .empty => True
  | .leaf _ _ => True
  | .branch c => (∃ i, c i ≠ .empty) ∧ ∀ i, Filled (c i)

/-- A filled tree is empty or holds a key. -/
theorem Filled.leaves_ne_nil {t : Tree n α} (filled : Filled t) (occupied : t ≠ .empty) :
    t.leaves ≠ [] := by
  induction t with
  | empty => exact absurd rfl occupied
  | leaf k v => nofun
  | branch c ih =>
    obtain ⟨⟨i, child⟩, below⟩ := filled
    obtain ⟨x, member⟩ := List.exists_mem_of_ne_nil _ (ih i (below i) child)
    exact List.ne_nil_of_mem ((mem_leaves_branch c x).2 ⟨i, member⟩)

theorem filled_update {c : Fin n → Tree n α} (filled : ∀ i, Filled (c i)) {t : Tree n α}
    (i : Fin n) (new : Filled t) (j : Fin n) : Filled (Function.update c i t j) := by
  rw [Function.update_apply]
  split
  · exact new
  · exact filled j

theorem filled_single (i : Fin n) (k : ℕ) (w : α) (j : Fin n) :
    Filled (Function.update (fun _ => (.empty : Tree n α)) i (.leaf k w) j) :=
  filled_update (c := fun _ => (.empty : Tree n α)) (fun _ => trivial) i (t := .leaf k w) trivial j

theorem update_occupied {c : Fin n → Tree n α} {t : Tree n α} (i : Fin n) (occupied : t ≠ .empty) :
    ∃ j, Function.update c i t j ≠ .empty := by
  refine ⟨i, ?_⟩
  rw [Function.update_self]
  exact occupied

variable [NeZero n]

/-- Only the branches on the left spine may be left without children. -/
def Tidy : Tree n α → Prop
  | .empty => True
  | .leaf _ _ => True
  | .branch c => Tidy (c 0) ∧ ∀ i ≠ 0, Filled (c i)

theorem Filled.tidy {t : Tree n α} (filled : Filled t) : Tidy t := by
  induction t with
  | empty => trivial
  | leaf k v => trivial
  | branch c ih => exact ⟨ih 0 (filled.2 0), fun i _ => filled.2 i⟩

theorem filled_put {d q key : ℕ} {c : Fin n → Tree n α} {v : α} (filled : ∀ i, Filled (c i))
    (fits : (branch c).Fits (d + 1) q) (below : key / n ^ (d + 1) = q) :
    Filled (.branch (put (d + 1) c key v)) := by
  induction d generalizing q c with
  | zero =>
    have child := fits (digit n 0 key)
    have old := filled (digit n 0 key)
    have here := div_eq_of_digit below
    rw [put_succ]
    cases slot : c (digit n 0 key) with
    | empty => exact ⟨update_occupied _ (leaf_ne_empty _ _), filled_update filled _ trivial⟩
    | leaf k w =>
      rw [slot] at child
      simp only [Fits, pow_zero, Nat.div_one] at child here
      dsimp only
      rw [if_pos (child.trans here.symm)]
      exact ⟨update_occupied _ (leaf_ne_empty _ _), filled_update filled _ trivial⟩
    | branch c' =>
      rw [slot] at child
      exact child.elim
  | succ d ih =>
    have child := fits (digit n (d + 1) key)
    have old := filled (digit n (d + 1) key)
    have here := div_eq_of_digit below
    rw [put_succ]
    cases slot : c (digit n (d + 1) key) with
    | empty => exact ⟨update_occupied _ (leaf_ne_empty _ _), filled_update filled _ trivial⟩
    | leaf k w =>
      rw [slot] at child
      dsimp only
      split
      · exact ⟨update_occupied _ (leaf_ne_empty _ _), filled_update filled _ trivial⟩
      · rw [Nat.add_sub_cancel]
        have pushed := ih (filled_single (digit n d k) k w) (fits_single child) here
        exact ⟨update_occupied _ (branch_ne_empty _), filled_update filled _ pushed⟩
    | branch c' =>
      rw [slot] at child old
      exact ⟨update_occupied _ (branch_ne_empty _), filled_update filled _ (ih old.2 child here)⟩

/-- Writing a key keeps a tree tidy. -/
theorem tidy_put {d q key : ℕ} {c : Fin n → Tree n α} {v : α} (tidy : Tidy (.branch c))
    (fits : (branch c).Fits d q) (below : key / n ^ d = q) : Tidy (.branch (put d c key v)) := by
  induction d generalizing q c with
  | zero => exact fits.elim
  | succ d ih =>
    obtain ⟨spine, rest⟩ := tidy
    by_cases zero : digit n d key = 0
    · have child := fits 0
      have here := div_eq_of_digit below
      rw [zero] at here
      rw [put_succ, zero]
      refine ⟨?_, fun i other => ?_⟩
      · rw [Function.update_self]
        cases slot : c 0 with
        | empty => trivial
        | leaf k w =>
          rw [slot] at child
          dsimp only
          split
          · trivial
          · rename_i other
            cases d with
            | zero =>
              simp only [Fits, pow_zero, Nat.div_one] at child here
              exact absurd (child.trans here.symm) other
            | succ d =>
              rw [Nat.add_sub_cancel]
              exact (filled_put (filled_single _ k w) (fits_single child) here).tidy
        | branch c' =>
          rw [slot] at child spine
          exact ih spine child here
      · rw [Function.update_of_ne other]
        exact rest i other
    · -- The spine child is out of reach, so it may be taken for empty.
      have emptied : ∀ i, Filled (Function.update c 0 .empty i) := by
        intro i
        rw [Function.update_apply]
        split
        · trivial
        · exact rest i ‹_›
      have fits' : (branch (Function.update c 0 .empty)).Fits (d + 1) q := by
        intro i
        rw [Function.update_apply]
        split
        · trivial
        · exact fits i
      have filled := filled_put (v := v) emptied fits' below
      rw [put_succ, Function.update_of_ne zero] at filled
      rw [put_succ]
      refine ⟨?_, fun i other => ?_⟩
      · rw [Function.update_of_ne (Ne.symm zero)]
        exact spine
      · have new := filled.2 i
        by_cases same : i = digit n d key
        · rw [same, Function.update_self] at new ⊢
          exact new
        · rw [Function.update_of_ne same]
          exact rest i other

theorem Grown.tidy {d d' : ℕ} {c c' : Fin n → Tree n α} (grown : Grown d c d' c')
    (tidy : Tidy (.branch c)) : Tidy (.branch c') := by
  induction grown with
  | refl d c => exact tidy
  | lift more ih =>
    refine ih ⟨?_, fun i other => ?_⟩
    · rw [TreeShape.lift, Function.update_self]
      exact tidy
    · rw [TreeShape.lift, Function.update_of_ne other]
      trivial

/-- What removing a key does to the children of a branch. -/
theorem erase_cases (d key : ℕ) (c : Fin n → Tree n α) : erase (d + 1) c key = c ∨
    ∃ t, erase (d + 1) c key = Function.update c (digit n d key) t ∧ (t = .empty ∨
      ∃ c', c (digit n d key) = .branch c' ∧ t = .branch (erase d c' key) ∧
        ∃ j, erase d c' key j ≠ .empty) := by
  rw [erase]
  cases slot : c (digit n d key) with
  | empty => exact .inl rfl
  | leaf k w =>
    dsimp only
    split
    · exact .inr ⟨.empty, rfl, .inl rfl⟩
    · exact .inl rfl
  | branch c' =>
    dsimp only
    split
    · exact .inr ⟨.empty, rfl, .inl rfl⟩
    · rename_i left
      obtain ⟨j, more⟩ := not_forall.1 left
      exact .inr ⟨_, rfl, .inr ⟨c', rfl, rfl, j, fun none_left => more ((isEmpty_iff _).2 none_left)⟩⟩

/-- Removing a key leaves the children filled, because an emptied branch goes with it. -/
theorem filled_erase (d key : ℕ) {c : Fin n → Tree n α} (filled : ∀ i, Filled (c i)) (i : Fin n) :
    Filled (erase d c key i) := by
  induction d generalizing c i with
  | zero => exact filled i
  | succ d ih =>
    rcases erase_cases d key c with same | ⟨t, changed, rfl | ⟨c', slot, rfl, left⟩⟩
    · rw [same]
      exact filled i
    · rw [changed]
      exact filled_update filled _ (t := .empty) trivial i
    · have old := filled (digit n d key)
      rw [slot] at old
      rw [changed]
      exact filled_update filled _ (t := .branch _) ⟨left, ih old.2⟩ i

theorem tidy_erase (d key : ℕ) {c : Fin n → Tree n α} (tidy : Tidy (.branch c)) :
    Tidy (.branch (erase d c key)) := by
  induction d generalizing c with
  | zero => exact tidy
  | succ d ih =>
    obtain ⟨spine, rest⟩ := tidy
    rcases erase_cases d key c with same | ⟨t, changed, shape⟩
    · rw [same]
      exact ⟨spine, rest⟩
    · rw [changed]
      refine ⟨?_, fun i other => ?_⟩
      · rw [Function.update_apply]
        split
        · rename_i zero
          rcases shape with rfl | ⟨c', slot, rfl, -⟩
          · trivial
          · rw [← zero] at slot
            rw [slot] at spine
            exact ih spine
        · exact spine
      · rw [Function.update_apply]
        split
        · rename_i here
          rcases shape with rfl | ⟨c', slot, rfl, left⟩
          · trivial
          · have old := rest i other
            rw [here, slot] at old
            exact ⟨left, filled_erase d key old.2⟩
        · exact rest i other

end Tidy

section Canonical

/-- Below a branch off the left spine stand at least two leaves. -/
def Compact : Tree n α → Prop
  | .empty => True
  | .leaf _ _ => True
  | .branch c => 2 ≤ size (.branch c) ∧ ∀ i, Compact (c i)

theorem compact_single (i : Fin n) (k : ℕ) (w : α) (j : Fin n) :
    Compact (Function.update (fun _ => (.empty : Tree n α)) i (.leaf k w) j) := by
  rw [Function.update_apply]
  split <;> trivial

variable [NeZero n]

/-- The left spine goes down to depth 1, and the rest is compact. -/
def Canonical : ℕ → (Fin n → Tree n α) → Prop
  | 0, _ => False
  | 1, c => ∀ i, Compact (c i)
  | d + 2, c => (∃ c₀, c 0 = .branch c₀ ∧ Canonical (d + 1) c₀) ∧ ∀ i ≠ 0, Compact (c i)

theorem leaves_ext {t t' : Tree n α} {d q : ℕ} (fits : t.Fits d q) (fits' : t'.Fits d q)
    (same : ∀ key, t.lookup d key = t'.lookup d key) : t.leaves = t'.leaves := by
  refine List.Perm.eq_of_pairwise ?_ (leaves_sorted fits) (leaves_sorted fits') ?_
  · intro x y _ _ less more
    exact absurd more (Nat.lt_asymm less)
  · have nodup : ∀ {t : Tree n α}, t.Fits d q → t.leaves.Nodup := fun fits =>
      (leaves_sorted fits).imp fun less equal => absurd (congrArg Prod.fst equal) (Nat.ne_of_lt less)
    rw [List.perm_ext_iff_of_nodup (nodup fits) (nodup fits')]
    rintro ⟨key, v⟩
    rw [mem_leaves_iff fits, mem_leaves_iff fits', same]

/-- Children of branches with the same keys have the same keys. -/
theorem lookup_child_ext {c c' : Fin n → Tree n α} {d q : ℕ} (fits : (branch c).Fits (d + 1) q)
    (fits' : (branch c').Fits (d + 1) q)
    (same : ∀ key, (branch c).lookup (d + 1) key = (branch c').lookup (d + 1) key) (i : Fin n)
    (key : ℕ) : (c i).lookup d key = (c' i).lookup d key := by
  have absent : ∀ {c : Fin n → Tree n α}, (branch c).Fits (d + 1) q → digit n d key ≠ i →
      (c i).lookup d key = none := by
    intro c fits other
    by_contra found
    obtain ⟨v, hv⟩ := Option.ne_none_iff_exists'.mp found
    exact other (digit_of_div (key_div_of_mem_leaves (fits i) (mem_leaves_of_lookup hv)))
  by_cases here : digit n d key = i
  · have := same key
    rwa [lookup_branch, lookup_branch, here] at this
  · rw [absent fits here, absent fits' here]

/-- Compact trees with the same keys are the same. -/
theorem Compact.ext {t t' : Tree n α} {d q : ℕ} (compact : Compact t) (compact' : Compact t')
    (fits : t.Fits d q) (fits' : t'.Fits d q)
    (same : ∀ key, t.lookup d key = t'.lookup d key) : t = t' := by
  induction t generalizing t' d q with
  | empty =>
    have leaves := leaves_ext fits fits' same
    cases t' with
    | empty => rfl
    | leaf k v => cases leaves
    | branch c =>
      have := compact'.1
      rw [size, ← leaves] at this
      exact absurd this (by simp)
  | leaf k v =>
    have leaves := leaves_ext fits fits' same
    cases t' with
    | empty => cases leaves
    | leaf k' v' =>
      cases leaves
      rfl
    | branch c =>
      have := compact'.1
      rw [size, ← leaves, leaves_leaf, List.length_singleton] at this
      exact absurd this (by decide)
  | branch c ih =>
    have leaves := leaves_ext fits fits' same
    have large := compact.1
    rw [size, leaves] at large
    cases t' with
    | empty => exact absurd large (by simp)
    | leaf k v => exact absurd large (by simp)
    | branch c' =>
      cases d with
      | zero => exact fits.elim
      | succ d =>
        congr 1
        funext i
        exact ih i (compact.2 i) (compact'.2 i) (fits i) (fits' i)
          (lookup_child_ext fits fits' same i)

/-- At one depth the canonical children are determined by the keys. -/
theorem Canonical.ext {c c' : Fin n → Tree n α} {d q : ℕ} (canonical : Canonical d c)
    (canonical' : Canonical d c') (fits : (branch c).Fits d q) (fits' : (branch c').Fits d q)
    (same : ∀ key, (branch c).lookup d key = (branch c').lookup d key) : c = c' := by
  induction d generalizing c c' q with
  | zero => exact canonical.elim
  | succ d ih =>
    have child := lookup_child_ext fits fits' same
    funext i
    cases d with
    | zero => exact (canonical i).ext (canonical' i) (fits i) (fits' i) (child i)
    | succ d =>
      by_cases zero : i = 0
      · subst zero
        obtain ⟨⟨c₀, here, spine⟩, -⟩ := canonical
        obtain ⟨⟨c₀', here', spine'⟩, -⟩ := canonical'
        have fit := fits 0
        have fit' := fits' 0
        have lookups := child 0
        rw [here] at fit lookups
        rw [here'] at fit' lookups
        rw [here, here', ih spine spine' fit fit' lookups]
      · exact (canonical.2 i zero).ext (canonical'.2 i zero) (fits i) (fits' i) (child i)

/-- Writing a key below compact children leaves them compact. -/
theorem compact_put {d q key : ℕ} {c : Fin n → Tree n α} {v : α}
    (compact : ∀ i, Compact (c i)) (fits : (branch c).Fits d q) (below : key / n ^ d = q)
    (i : Fin n) : Compact (put d c key v i) := by
  induction d generalizing q c i with
  | zero => exact compact i
  | succ d ih =>
    have here := div_eq_of_digit below
    by_cases same : i = digit n d key
    · subst same
      have child := fits (digit n d key)
      have old := compact (digit n d key)
      rw [put_succ, Function.update_self]
      cases slot : c (digit n d key) with
      | empty => trivial
      | leaf k w =>
        rw [slot] at child
        dsimp only
        split
        · trivial
        · rename_i other
          cases d with
          | zero =>
            simp only [Fits, pow_zero, Nat.div_one] at child here
            exact absurd (child.trans here.symm) other
          | succ d =>
            rw [Nat.add_sub_cancel]
            refine ⟨?_, ih (compact_single _ k w) (fits_single child) here⟩
            rw [size_put (fits_single child) here, lookup_single, if_neg (Ne.symm other),
              size_single, size_leaf]
            simp
      | branch c' =>
        rw [slot] at child old
        cases d with
        | zero => exact child.elim
        | succ d =>
          refine ⟨?_, ih old.2 child here⟩
          rw [size_put child here]
          exact le_trans old.1 (Nat.le_add_right _ _)
    · rw [put_succ, Function.update_of_ne same]
      exact compact i

/-- Writing a key keeps the shape canonical. -/
theorem canonical_put {d q key : ℕ} {c : Fin n → Tree n α} {v : α} (canonical : Canonical d c)
    (fits : (branch c).Fits d q) (below : key / n ^ d = q) : Canonical d (put d c key v) := by
  induction d generalizing q c with
  | zero => exact canonical.elim
  | succ d ih =>
    cases d with
    | zero => exact fun i => compact_put canonical fits below i
    | succ d =>
      obtain ⟨⟨c₀, here, spine⟩, rest⟩ := canonical
      have fit := fits 0
      rw [here] at fit
      have deeper := div_eq_of_digit below
      by_cases zero : digit n (d + 1) key = 0
      · rw [zero] at deeper
        have step := ih spine fit deeper
        rw [put_succ, zero, here]
        refine ⟨⟨put (d + 1) c₀ key v, Function.update_self _ _ _, step⟩, ?_⟩
        intro i other
        rw [Function.update_of_ne other]
        exact rest i other
      · refine ⟨⟨c₀, ?_, spine⟩, ?_⟩
        · rw [put_succ, Function.update_of_ne (Ne.symm zero), here]
        · -- The spine child is out of reach, so it may be taken for empty.
          intro i other
          have emptied : ∀ j, Compact (Function.update c 0 .empty j) := by
            intro j
            by_cases first : j = 0
            · rw [first, Function.update_self]
              trivial
            · rw [Function.update_of_ne first]
              exact rest j first
          have fits' : (branch (Function.update c 0 .empty)).Fits (d + 1 + 1) q := by
            intro j
            by_cases first : j = 0
            · rw [first, Function.update_self]
              trivial
            · rw [Function.update_of_ne first]
              exact fits j
          have := compact_put (v := v) emptied fits' below i
          rw [put_succ, Function.update_of_ne zero] at this
          rw [put_succ]
          by_cases same : i = digit n (d + 1) key
          · rw [same, Function.update_self] at this ⊢
            exact this
          · rw [Function.update_of_ne same]
            exact rest i other

/-- A level put on top of a canonical shape is canonical. -/
theorem canonical_lift {d : ℕ} {c : Fin n → Tree n α} (canonical : Canonical d c) :
    Canonical (d + 1) (lift c) := by
  cases d with
  | zero => exact canonical.elim
  | succ d =>
    refine ⟨⟨c, Function.update_self _ _ _, canonical⟩, ?_⟩
    intro i other
    rw [lift, Function.update_of_ne other]
    trivial

theorem Grown.canonical {d d' : ℕ} {c c' : Fin n → Tree n α} (grown : Grown d c d' c')
    (canonical : Canonical d c) : Canonical d' c' := by
  induction grown with
  | refl d c => exact canonical
  | lift more ih => exact ih (canonical_lift canonical)

/-- No level more than the largest key asks for. -/
def Minimal (d : ℕ) (c : Fin n → Tree n α) : Prop :=
  d = 1 ∨ ∃ key, n ^ (d - 1) ≤ key ∧ ((branch c).lookup d key).isSome = true

/-- Minimal trees with the same keys have the same depth. -/
theorem Minimal.depth_eq {d d' : ℕ} {c c' : Fin n → Tree n α} (minimal : Minimal d c)
    (minimal' : Minimal d' c') (pos : 1 ≤ d) (pos' : 1 ≤ d') (fits : (branch c).Fits d 0)
    (fits' : (branch c').Fits d' 0)
    (same : ∀ key, (branch c).lookup d key = (branch c').lookup d' key) : d = d' := by
  have bounded : ∀ {d d' : ℕ} {c c' : Fin n → Tree n α}, Minimal d' c' → 1 ≤ d →
      (branch c).Fits d 0 → (∀ key, (branch c).lookup d key = (branch c').lookup d' key) →
      d' ≤ d := by
    intro d d' c c' minimal' pos fits same
    rcases minimal' with one | ⟨key, high, found⟩
    · omega
    · by_contra more
      obtain ⟨v, hv⟩ := Option.isSome_iff_exists.mp found
      rw [← same] at hv
      have low := key_div_of_mem_leaves fits (mem_leaves_of_lookup hv)
      have above : n ^ d ≤ key :=
        le_trans (Nat.pow_le_pow_right (NeZero.pos n) (by omega)) high
      exact absurd ((Nat.div_eq_zero_iff_lt (Nat.pow_pos (NeZero.pos n))).mp low) (by omega)
  apply le_antisymm
  · exact bounded minimal pos' fits' fun key => (same key).symm
  · exact bounded minimal' pos fits same

end Canonical

end Epilog.Lib.TreeShape
