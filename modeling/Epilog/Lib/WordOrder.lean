/- Module: Epilog/Lib/WordOrder
   source: none (library)
   digest: Words compared up to their first difference, and the signs of a linear order. -/

import Mathlib.Data.List.Lex
import Mathlib.Tactic.Ring

set_option autoImplicit false

namespace Epilog.Lib.WordOrder

section Scan

variable {α ρ : Type} [DecidableEq α]

/-- The first place where both words have a letter and the letters differ. -/
def firstDiff : List α → List α → Option (α × α)
  | a :: w, b :: v => if a = b then firstDiff w v else some (a, b)
  | _, _ => none

/-- A walk over two words. Different letters are judged, and those without a verdict are passed. -/
def scan (judge : α → α → Option ρ) (done : ρ) : List α → List α → ρ
  | a :: w, b :: v => if a = b then scan judge done w v else (judge a b).getD (scan judge done w v)
  | _, _ => done

@[simp] theorem firstDiff_cons (a b : α) (w v : List α) :
    firstDiff (a :: w) (b :: v) = if a = b then firstDiff w v else some (a, b) := rfl

theorem firstDiff_ne {w v : List α} {a b : α} (found : firstDiff w v = some (a, b)) : a ≠ b := by
  induction w generalizing v with
  | nil => cases found
  | cons c w ih =>
    cases v with
    | nil => cases found
    | cons d v =>
      rw [firstDiff_cons] at found
      split_ifs at found with same
      · exact ih found
      · cases found
        exact same

@[simp] theorem firstDiff_self (w : List α) : firstDiff w w = none := by
  induction w with
  | nil => rfl
  | cons a w ih => rw [firstDiff_cons, if_pos rfl, ih]

theorem firstDiff_mem {w v : List α} {a b : α} (found : firstDiff w v = some (a, b)) :
    a ∈ w ∧ b ∈ v := by
  induction w generalizing v with
  | nil => cases found
  | cons c w ih =>
    cases v with
    | nil => cases found
    | cons d v =>
      rw [firstDiff_cons] at found
      split_ifs at found with same
      · exact (ih found).imp (List.mem_cons_of_mem c) (List.mem_cons_of_mem d)
      · cases found
        exact ⟨List.mem_cons_self, List.mem_cons_self⟩

/-- Where the images of two words are the same, so are those of the letters. -/
theorem firstDiff_map {γ : Type} {f : α → γ} {w v : List α} {a b : α}
    (found : firstDiff w v = some (a, b)) (same : w.map f = v.map f) : f a = f b := by
  induction w generalizing v with
  | nil => cases found
  | cons c w ih =>
    cases v with
    | nil => cases found
    | cons d v =>
      obtain ⟨head, tail⟩ := List.cons.inj same
      rw [firstDiff_cons] at found
      split_ifs at found
      · exact ih found tail
      · cases found
        exact head

theorem firstDiff_swap (w v : List α) : firstDiff v w = (firstDiff w v).map Prod.swap := by
  induction w generalizing v with
  | nil => cases v <;> rfl
  | cons a w ih =>
    cases v with
    | nil => rfl
    | cons b v =>
      rw [firstDiff_cons, firstDiff_cons]
      by_cases same : a = b
      · rw [if_pos same, if_pos same.symm, ih]
      · rw [if_neg same, if_neg (Ne.symm same)]
        rfl

variable {judge : α → α → Option ρ} {done : ρ}

theorem scan_append (u w v : List α) :
    scan judge done (u ++ w) (u ++ v) = scan judge done w v := by
  induction u with
  | nil => rfl
  | cons a u ih =>
    rw [List.cons_append, List.cons_append, scan, if_pos rfl, ih]

/-- With a verdict on all letters only the first difference matters. -/
theorem scan_some (f : α → α → ρ) (w v : List α) :
    scan (fun a b => some (f a b)) done w v =
      (firstDiff w v).elim done fun x => f x.1 x.2 := by
  induction w generalizing v with
  | nil => cases v <;> rfl
  | cons a w ih =>
    cases v with
    | nil => rfl
    | cons b v =>
      rw [scan, firstDiff_cons, ih]
      split_ifs
      · rfl
      · rfl

/-- Letters that agree are passed, and others end the walk. -/
def refuse {β : Type} [DecidableEq β] (norm : α → β) (a b : α) : Option Bool :=
  if norm a = norm b then none else some false

theorem scan_refuse {β : Type} [DecidableEq β] (norm : α → β) (w v : List α) :
    scan (refuse norm) true w v = true ↔ firstDiff (w.map norm) (v.map norm) = none := by
  induction w generalizing v with
  | nil => cases v <;> exact iff_of_true rfl rfl
  | cons a w ih =>
    cases v with
    | nil => exact iff_of_true rfl rfl
    | cons b v =>
      rw [scan, List.map_cons, List.map_cons, firstDiff_cons, refuse]
      by_cases same : a = b
      · rw [if_pos same, if_pos (congrArg norm same), ih]
      · rw [if_neg same]
        split_ifs
        · exact ih v
        · exact iff_of_false nofun nofun

end Scan

section Sign

variable {β : Type} [LinearOrder β] {x y z : β}

/-- -1, 0 or 1 as the first is less, equal or greater -/
def orderSign (x y : β) : ℤ := if x < y then -1 else if x = y then 0 else 1

theorem orderSign_mem (x y : β) : orderSign x y = -1 ∨ orderSign x y = 0 ∨ orderSign x y = 1 := by
  unfold orderSign
  split_ifs
  · exact .inl rfl
  · exact .inr (.inl rfl)
  · exact .inr (.inr rfl)

theorem orderSign_of_lt (less : x < y) : orderSign x y = -1 := if_pos less

theorem orderSign_of_gt (more : y < x) : orderSign x y = 1 := by
  rw [orderSign, if_neg (lt_asymm more), if_neg (ne_of_gt more)]

@[simp] theorem orderSign_self (x : β) : orderSign x x = 0 := by
  rw [orderSign, if_neg (lt_irrefl x), if_pos rfl]

theorem orderSign_swap (x y : β) : orderSign y x = -orderSign x y := by
  rcases lt_trichotomy x y with less | rfl | more
  · rw [orderSign_of_lt less, orderSign_of_gt less]
    rfl
  · simp
  · rw [orderSign_of_lt more, orderSign_of_gt more]

theorem orderSign_eq_zero : orderSign x y = 0 ↔ x = y := by
  constructor
  · intro zero
    rcases lt_trichotomy x y with less | same | more
    · rw [orderSign_of_lt less] at zero
      cases zero
    · exact same
    · rw [orderSign_of_gt more] at zero
      cases zero
  · rintro rfl
    exact orderSign_self x

theorem orderSign_nonpos : orderSign x y ≤ 0 ↔ x ≤ y := by
  rcases lt_trichotomy x y with less | rfl | more
  · rw [orderSign_of_lt less]
    exact iff_of_true (by decide) less.le
  · simp
  · rw [orderSign_of_gt more]
    exact iff_of_false (by decide) (not_le.2 more)

theorem orderSign_neg : orderSign x y < 0 ↔ x < y := by
  rw [lt_iff_le_and_ne, orderSign_nonpos, ne_eq, orderSign_eq_zero, lt_iff_le_and_ne]

theorem orderSign_cons (x y : β) (w v : List β) :
    orderSign (x :: w) (y :: v) = if x = y then orderSign w v else orderSign x y := by
  unfold orderSign
  simp only [List.cons_lt_cons_iff, List.cons.injEq]
  split_ifs <;> grind

theorem orderSign_singleton (x y : β) : orderSign [x] [y] = orderSign x y := by
  rw [orderSign_cons]
  split_ifs with same
  · rw [same, orderSign_self, orderSign_self]
  · rfl

/-- Different elements are less or greater. -/
theorem ite_lt_eq (apart : x ≠ y) : (if x < y then (-1 : ℤ) else 1) = orderSign x y := by
  rcases lt_or_gt_of_ne apart with less | more
  · rw [if_pos less, orderSign_of_lt less]
  · rw [if_neg (lt_asymm more), orderSign_of_gt more]

/-- The order of two words is that of the keys at their first difference. -/
theorem orderSign_map {α : Type} [DecidableEq α] (key : α → β) {w v : List α} {a b : α}
    (found : firstDiff w v = some (a, b)) (apart : key a ≠ key b) :
    orderSign (w.map key) (v.map key) = orderSign (key a) (key b) := by
  induction w generalizing v with
  | nil => cases found
  | cons c w ih =>
    cases v with
    | nil => cases found
    | cons d v =>
      rw [List.map_cons, List.map_cons, orderSign_cons]
      rw [firstDiff_cons] at found
      split_ifs at found with same
      · rw [if_pos (congrArg key same), ih found]
      · cases found
        rw [if_neg apart]

end Sign

end Epilog.Lib.WordOrder
