/- Module: Epilog/Lib/PackedSlots
   digest: Sparse slots packed into a list in slot order, addressed by rank. -/

import Mathlib.Data.Nat.Count
import Mathlib.Data.List.InsertIdx
import Mathlib.Logic.Function.Basic

set_option autoImplicit false

namespace Epilog.Lib.PackedSlots

universe u

variable {α : Type u} {w : ℕ}

/-- The number of occupied slots strictly below `i`. -/
def rank (used : ℕ → Bool) (i : ℕ) : ℕ := Nat.count (fun j => used j = true) i

/-- The entry of slot `i`; the packed list may have unused cells behind the last entry. -/
def slot (used : ℕ → Bool) (packed : List α) (i : ℕ) : Option α :=
  if used i then packed[rank used i]? else none

/-- Every occupied slot below `w` has its cell. -/
def Packed (w : ℕ) (used : ℕ → Bool) (packed : List α) : Prop := rank used w ≤ packed.length

theorem rank_succ (used : ℕ → Bool) (i : ℕ) :
    rank used (i + 1) = rank used i + if used i then 1 else 0 := by
  simp only [rank, Nat.count_succ]

theorem rank_le {used : ℕ → Bool} {i j : ℕ} (le : i ≤ j) : rank used i ≤ rank used j :=
  Nat.count_monotone _ le

theorem rank_lt {used : ℕ → Bool} {i j : ℕ} (occupied : used i = true) (less : i < j) :
    rank used i < rank used j :=
  Nat.count_strict_mono (p := fun j => used j = true) occupied less

theorem rank_congr {used used' : ℕ → Bool} {i : ℕ} (same : ∀ j < i, used j = used' j) :
    rank used i = rank used' i := by
  induction i with
  | zero => simp [rank]
  | succ i ih =>
      rw [rank_succ, rank_succ, same i (Nat.lt_succ_self i),
        ih fun j less => same j (Nat.lt_succ_of_lt less)]

/-- Occupying a free slot shifts the rank of every later slot by one. -/
theorem rank_update_true {used : ℕ → Bool} {i : ℕ} (free : used i = false) (j : ℕ) :
    rank (Function.update used i true) j = rank used j + if i < j then 1 else 0 := by
  induction j with
  | zero => simp [rank]
  | succ j ih =>
      rw [rank_succ, rank_succ, ih]
      by_cases same : j = i
      · subst same
        simp [free]
      · rw [Function.update_of_ne same]
        by_cases less : i < j
        · simp only [less, Nat.lt_succ_of_lt less, if_true]
          omega
        · have : ¬ i < j + 1 := by omega
          simp [less, this]

theorem rank_update_false {used : ℕ → Bool} {i : ℕ} (occupied : used i = true) (j : ℕ) :
    rank (Function.update used i false) j + (if i < j then 1 else 0) = rank used j := by
  have free : Function.update used i false i = false := Function.update_self i false used
  have back := rank_update_true free j
  have restore : Function.update (Function.update used i false) i true = used := by
    rw [Function.update_idem, ← occupied, Function.update_eq_self]
  rw [restore] at back
  exact back.symm

theorem rank_eq_zero_iff {used : ℕ → Bool} {w : ℕ} :
    rank used w = 0 ↔ ∀ j < w, used j = false := by
  rw [rank, Nat.count_iff_forall_not]
  simp only [Bool.not_eq_true]

/-- One occupied slot and no other -/
theorem rank_eq_one_iff {used : ℕ → Bool} {i w : ℕ} (occupied : used i = true) (less : i < w) :
    rank used w = 1 ↔ ∀ j < w, j ≠ i → used j = false := by
  have shift := rank_update_false occupied w
  rw [if_pos less] at shift
  rw [← shift, Nat.add_eq_right, rank_eq_zero_iff]
  constructor
  · intro none_left j inside other
    rw [← none_left j inside, Function.update_of_ne other]
  · intro alone j inside
    rw [Function.update_apply]
    split
    · rfl
    · rename_i other
      exact alone j inside other

/-- The packed list after a free slot has received an entry. -/
def insertAt (used : ℕ → Bool) (packed : List α) (w i : ℕ) (x : α) : List α :=
  packed.take (rank used i) ++ x :: (packed.drop (rank used i)).take (rank used w - rank used i)

theorem length_insertAt {used : ℕ → Bool} {packed : List α} {i : ℕ} {x : α}
    (full : Packed w used packed) (less : i < w) :
    (insertAt used packed w i x).length = rank used w + 1 := by
  have le : rank used i ≤ rank used w := rank_le less.le
  unfold Packed at full
  simp only [insertAt, List.length_append, List.length_take, List.length_cons, List.length_drop]
  omega

private theorem getElem?_insertAt {used : ℕ → Bool} {packed : List α} {i r : ℕ} {x : α}
    (full : Packed w used packed) (less : i < w) (inside : r ≤ rank used w) :
    (insertAt used packed w i x)[r]? =
      if r < rank used i then packed[r]? else if r = rank used i then some x
        else packed[r - 1]? := by
  have le : rank used i ≤ rank used w := rank_le less.le
  unfold Packed at full
  have len : (packed.take (rank used i)).length = rank used i := by
    rw [List.length_take]
    omega
  unfold insertAt
  by_cases before : r < rank used i
  · rw [if_pos before, List.getElem?_append_left (by omega), List.getElem?_take_of_lt before]
  · rw [if_neg before, List.getElem?_append_right (by omega), len]
    by_cases here : r = rank used i
    · simp [here]
    · rw [if_neg here]
      obtain ⟨s, rfl⟩ : ∃ s, r = rank used i + (s + 1) := ⟨r - rank used i - 1, by omega⟩
      rw [Nat.add_sub_cancel_left, List.getElem?_cons_succ,
        List.getElem?_take_of_lt (by omega), List.getElem?_drop]
      congr 1

/-- Occupying a free slot sets that slot and no other. -/
theorem slot_insertAt {used : ℕ → Bool} {packed : List α} {i j : ℕ} {x : α}
    (full : Packed w used packed) (less : i < w) (free : used i = false) (inside : j < w) :
    slot (Function.update used i true) (insertAt used packed w i x) j =
      if j = i then some x else slot used packed j := by
  unfold slot
  by_cases same : j = i
  · subst same
    rw [Function.update_self, if_pos rfl, if_pos rfl, rank_update_true free,
      getElem?_insertAt full less (by simpa using rank_le less.le)]
    simp
  · rw [Function.update_of_ne same, if_neg same]
    cases occupied : used j with
    | false => rfl
    | true =>
        simp only [if_true]
        have below : rank used j < rank used w := rank_lt occupied inside
        rw [rank_update_true free]
        by_cases after : i < j
        · rw [if_pos after, getElem?_insertAt full less (by omega)]
          have : rank used i ≤ rank used j := rank_le after.le
          rw [if_neg (by omega), if_neg (by omega), Nat.add_sub_cancel]
        · rw [if_neg after, Nat.add_zero, getElem?_insertAt full less (by omega)]
          have : rank used j < rank used i := rank_lt occupied (by omega)
          rw [if_pos this]

theorem packed_insertAt {used : ℕ → Bool} {packed : List α} {i : ℕ} {x : α}
    (full : Packed w used packed) (less : i < w) (free : used i = false) :
    Packed w (Function.update used i true) (insertAt used packed w i x) := by
  unfold Packed
  rw [length_insertAt full less, rank_update_true free, if_pos less]

/-- Overwriting an occupied slot changes that slot and no other. -/
theorem slot_set {used : ℕ → Bool} {packed : List α} {i j : ℕ} {x : α}
    (full : Packed w used packed) (less : i < w) (occupied : used i = true) :
    slot used (packed.set (rank used i) x) j = if j = i then some x else slot used packed j := by
  unfold slot
  by_cases same : j = i
  · subst same
    have : rank used j < packed.length := lt_of_lt_of_le (rank_lt occupied less) full
    simp [occupied, this]
  · rw [if_neg same]
    cases other : used j with
    | false => rfl
    | true =>
        simp only [if_true]
        rw [List.getElem?_set_ne]
        intro equal
        exact same (Nat.count_injective (p := fun j => used j = true) other occupied equal.symm)

theorem packed_set {used : ℕ → Bool} {packed : List α} {i : ℕ} {x : α}
    (full : Packed w used packed) : Packed w used (packed.set i x) := by
  simpa [Packed] using full

/-- The packed list after an occupied slot was emptied: later entries move down by one. -/
def removeAt (used : ℕ → Bool) (packed : List α) (i : ℕ) : List α :=
  packed.eraseIdx (rank used i)

theorem slot_removeAt {used : ℕ → Bool} {packed : List α} (tail : List α) {i j : ℕ}
    (full : Packed w used packed) (less : i < w) (occupied : used i = true) (inside : j < w) :
    slot (Function.update used i false) (removeAt used packed i ++ tail) j =
      if j = i then none else slot used packed j := by
  unfold slot removeAt
  by_cases same : j = i
  · subst same
    simp
  · rw [Function.update_of_ne same, if_neg same]
    cases other : used j with
    | false => rfl
    | true =>
        simp only [if_true]
        have shift := rank_update_false occupied j
        have below : rank used j < rank used w := rank_lt other inside
        have here : rank used i < rank used w := rank_lt occupied less
        unfold Packed at full
        have len : (packed.eraseIdx (rank used i)).length = packed.length - 1 := by
          rw [List.length_eraseIdx_of_lt (by omega)]
        by_cases after : i < j
        · rw [if_pos after] at shift
          have : rank used i < rank used j := rank_lt occupied after
          rw [List.getElem?_append_left (by omega),
            List.getElem?_eraseIdx_of_ge (by omega), ← shift]
        · rw [if_neg after] at shift
          have : rank used j < rank used i := rank_lt other (by omega)
          rw [List.getElem?_append_left (by omega), List.getElem?_eraseIdx_of_lt (by omega),
            ← shift, Nat.add_zero]

theorem packed_removeAt {used : ℕ → Bool} {packed tail : List α} {i : ℕ}
    (full : Packed w used packed) (less : i < w) (occupied : used i = true) :
    Packed w (Function.update used i false) (removeAt used packed i ++ tail) := by
  have shift := rank_update_false occupied w
  rw [if_pos less] at shift
  have here : rank used i < rank used w := rank_lt occupied less
  unfold Packed at full ⊢
  rw [removeAt, List.length_append, List.length_eraseIdx_of_lt (by omega)]
  omega

/-- Cells behind the last entry do not matter. -/
theorem slot_take {used : ℕ → Bool} {packed : List α} {j : ℕ} (inside : j < w) :
    slot used (packed.take (rank used w)) j = slot used packed j := by
  unfold slot
  cases occupied : used j with
  | false => rfl
  | true =>
      simp only [if_true]
      rw [List.getElem?_take_of_lt (rank_lt occupied inside)]

theorem packed_take {used : ℕ → Bool} {packed : List α} (full : Packed w used packed) :
    Packed w used (packed.take (rank used w)) := by
  unfold Packed at full ⊢
  rw [List.length_take]
  omega

/-- The entries of the occupied slots, collected in slot order -/
def gather (used : ℕ → Bool) (w : ℕ) (f : ℕ → α) : List α := ((List.range w).filter used).map f

theorem gather_succ (used : ℕ → Bool) (w : ℕ) (f : ℕ → α) :
    gather used (w + 1) f = gather used w f ++ if used w then [f w] else [] := by
  unfold gather
  rw [List.range_succ, List.filter_append, List.map_append]
  congr 1
  cases occupied : used w <;> simp [occupied]

theorem length_gather (used : ℕ → Bool) (w : ℕ) (f : ℕ → α) :
    (gather used w f).length = rank used w := by
  induction w with
  | zero => simp [gather, rank]
  | succ w ih =>
      rw [gather_succ, List.length_append, ih, rank_succ]
      split <;> rfl

theorem packed_gather (used : ℕ → Bool) (w : ℕ) (f : ℕ → α) :
    Packed w used (gather used w f) := (length_gather used w f).ge

theorem slot_gather (used : ℕ → Bool) {w i : ℕ} (f : ℕ → α) (less : i < w) :
    slot used (gather used w f) i = if used i then some (f i) else none := by
  unfold slot
  cases occupied : used i with
  | false => rfl
  | true =>
      simp only [if_true]
      induction w with
      | zero => omega
      | succ w ih =>
          rw [gather_succ]
          by_cases last : i = w
          · subst last
            rw [occupied, List.getElem?_append_right (length_gather used i f).le, length_gather,
              Nat.sub_self]
            rfl
          · have before : i < w := by omega
            rw [List.getElem?_append_left, ih before]
            rw [length_gather]
            exact rank_lt occupied before

end Epilog.Lib.PackedSlots
