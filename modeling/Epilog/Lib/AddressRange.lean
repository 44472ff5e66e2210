/- Module: Epilog/Lib/AddressRange
   digest: The entries of a partial map in an interval of addresses, in ascending order. -/

import Mathlib.Data.List.Sort
import Mathlib.Data.Finset.Sort

set_option autoImplicit false

namespace Epilog.Lib.AddressRange

variable {β : Type}

/-- The entries of `g` with an address from `lo` on and below `hi`. -/
def inRange (g : ℕ → Option β) (lo hi : ℕ) : List (ℕ × β) :=
  (List.range' lo (hi - lo)).filterMap fun a => (g a).map (Prod.mk a)

variable {g g' : ℕ → Option β} {lo mid hi : ℕ}

theorem mem_inRange {a : ℕ} {v : β} :
    (a, v) ∈ inRange g lo hi ↔ lo ≤ a ∧ a < hi ∧ g a = some v := by
  simp only [inRange, List.mem_filterMap, List.mem_range'_1, Option.map_eq_some_iff,
    Prod.mk.injEq]
  constructor
  · rintro ⟨a', ⟨low, high⟩, v', found, rfl, rfl⟩
    exact ⟨low, by omega, found⟩
  · rintro ⟨low, high, found⟩
    exact ⟨a, ⟨low, by omega⟩, v, found, rfl, rfl⟩

theorem inRange_pairwise : (inRange g lo hi).Pairwise fun x y => x.1 < y.1 := by
  unfold inRange
  rw [List.pairwise_filterMap]
  refine (List.pairwise_lt_range' (s := lo) (n := hi - lo)).imp ?_
  intro a b less x found y found'
  obtain ⟨v, -, rfl⟩ := Option.map_eq_some_iff.1 found
  obtain ⟨w, -, rfl⟩ := Option.map_eq_some_iff.1 found'
  exact less

/-- An ascending list of the entries is the range. -/
theorem eq_inRange {l : List (ℕ × β)} (ascending : l.Pairwise fun x y => x.1 < y.1)
    (members : ∀ a v, (a, v) ∈ l ↔ lo ≤ a ∧ a < hi ∧ g a = some v) : l = inRange g lo hi := by
  have nodup : ∀ {l : List (ℕ × β)}, (l.Pairwise fun x y => x.1 < y.1) → l.Nodup :=
    fun sorted => sorted.imp fun less same => absurd (congrArg Prod.fst same) less.ne
  have perm : l.Perm (inRange g lo hi) := by
    rw [List.perm_ext_iff_of_nodup (nodup ascending) (nodup inRange_pairwise)]
    rintro ⟨a, v⟩
    rw [members, mem_inRange]
  exact perm.eq_of_pairwise (fun x y _ _ less greater => absurd less greater.not_gt) ascending
    inRange_pairwise

/-- What follows the last of the first `k` entries -/
theorem inRange_after_take {k : ℕ} {last : ℕ × β}
    (found : ((inRange g lo hi).take k).getLast? = some last) :
    inRange g (last.1 + 1) hi = (inRange g lo hi).drop k := by
  obtain ⟨init, shape⟩ := List.getLast?_eq_some_iff.mp found
  have sorted : (inRange g lo hi).Pairwise fun x y => x.1 < y.1 := inRange_pairwise
  have split : inRange g lo hi = init ++ [last] ++ (inRange g lo hi).drop k := by
    rw [← shape, List.take_append_drop]
  have among : last ∈ inRange g lo hi :=
    List.take_subset k _ (by rw [shape]; exact List.mem_append_right _ (List.mem_singleton_self _))
  obtain ⟨low, -, -⟩ := mem_inRange.1 among
  rw [split, List.pairwise_append, List.pairwise_append] at sorted
  obtain ⟨⟨-, -, below⟩, ascending, above⟩ := sorted
  symm
  apply eq_inRange ascending
  intro a v
  constructor
  · intro member
    obtain ⟨-, high, value⟩ := mem_inRange.1 (List.mem_of_mem_drop member)
    have less : last.1 < a :=
      above _ (List.mem_append_right _ (List.mem_singleton_self _)) _ member
    exact ⟨less, high, value⟩
  · rintro ⟨less, high, value⟩
    have inside : (a, v) ∈ inRange g lo hi := mem_inRange.2 ⟨by omega, high, value⟩
    rw [split, List.mem_append, List.mem_append, List.mem_singleton] at inside
    rcases inside with (early | rfl) | late
    · have earlier : a < last.1 := below _ early _ (List.mem_singleton_self _)
      omega
    · exact absurd less (by simp)
    · exact late

/-- Where a predicate holds of a first part of a list, that part is what passes it. -/
theorem takeWhile_eq_filter {α : Type} {l : List α} {p : α → Bool}
    (closed : l.Pairwise fun x y => p y = true → p x = true) : l.takeWhile p = l.filter p := by
  induction l with
  | nil => rfl
  | cons x l ih =>
    obtain ⟨first, rest⟩ := List.pairwise_cons.1 closed
    by_cases holds : p x = true
    · rw [List.takeWhile_cons_of_pos holds, List.filter_cons_of_pos holds, ih rest]
    · have none_ : l.filter p = [] :=
        List.filter_eq_nil_iff.2 fun y inside below => holds (first y inside below)
      rw [List.takeWhile_cons_of_neg holds, List.filter_cons_of_neg holds, none_]

theorem dropWhile_eq_filter {α : Type} {l : List α} {p : α → Bool}
    (closed : l.Pairwise fun x y => p y = true → p x = true) :
    l.dropWhile p = l.filter fun x => !p x := by
  induction l with
  | nil => rfl
  | cons x l ih =>
    obtain ⟨first, rest⟩ := List.pairwise_cons.1 closed
    by_cases holds : p x = true
    · rw [List.dropWhile_cons_of_pos holds, List.filter_cons_of_neg (by simp [holds]), ih rest]
    · have all : l.filter (fun x => !p x) = l := by
        rw [List.filter_eq_self]
        intro y inside
        rw [Bool.not_eq_true', ← Bool.not_eq_true]
        exact fun below => holds (first y inside below)
      rw [List.dropWhile_cons_of_neg holds, List.filter_cons_of_pos (by simp [holds]), all]

end Epilog.Lib.AddressRange
