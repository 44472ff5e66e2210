/- Module: Epilog/Lib/Query
   source: none (library)
   digest: Stateful computations that only read a view of the state, and sets in ascending order. -/

import Mathlib.Data.Finset.Sort
import Mathlib.Data.List.Sort

set_option autoImplicit false

namespace Epilog.Lib.Query

section Reading

variable {σ ν α β : Type} (view : σ → ν)

/-- The answer depends on the view of the state alone, and the view stays as it is. -/
def Reads (x : StateM σ α) (f : ν → α) : Prop :=
  ∀ s, (x s).1 = f (view s) ∧ view (x s).2 = view s

variable {view}

theorem Reads.pure (a : α) : Reads view (Pure.pure a) fun _ => a := fun _ => ⟨rfl, rfl⟩

theorem Reads.bind {x : StateM σ α} {f : ν → α} {k : α → StateM σ β} {g : α → ν → β}
    (first : Reads view x f) (later : ∀ a, Reads view (k a) (g a)) :
    Reads view (x >>= k) fun v => g (f v) v := by
  intro s
  obtain ⟨answer, kept⟩ := first s
  obtain ⟨answer', kept'⟩ := later (x s).1 (x s).2
  rw [kept] at answer'
  refine ⟨?_, kept'.trans kept⟩
  change (k (x s).1 (x s).2).1 = _
  rw [answer', answer]

theorem Reads.foldlM {step : β → α → StateM σ β} {f : β → α → ν → β}
    (each : ∀ b a, Reads view (step b a) (f b a)) (l : List α) (b : β) :
    Reads view (l.foldlM step b) fun v => l.foldl (fun b a => f b a v) b := by
  induction l generalizing b with
  | nil => exact Reads.pure b
  | cons a l ih =>
    rw [List.foldlM_cons]
    exact (each b a).bind fun b' => ih b'

end Reading

section Ascending

variable {α : Type} [LinearOrder α]

/-- The elements of a set in the order in which an ordered container goes over them. -/
def ascending (s : Finset α) : List α :=
  Quot.liftOn s.val (List.insertionSort (· ≤ ·)) fun l l' perm =>
    ((List.perm_insertionSort (· ≤ ·) l).trans
      (perm.trans (List.perm_insertionSort (· ≤ ·) l').symm)).eq_of_pairwise'
      (List.pairwise_insertionSort (· ≤ ·) l) (List.pairwise_insertionSort (· ≤ ·) l')

theorem ascending_perm (s : Finset α) : (ascending s : Multiset α) = s.val := by
  obtain ⟨⟨l⟩, _⟩ := s
  exact Quot.sound (List.perm_insertionSort (· ≤ ·) l)

@[simp] theorem mem_ascending {s : Finset α} {a : α} : a ∈ ascending s ↔ a ∈ s := by
  rw [← Multiset.mem_coe, ascending_perm, Finset.mem_val]

theorem ascending_nodup (s : Finset α) : (ascending s).Nodup := by
  rw [← Multiset.coe_nodup, ascending_perm]
  exact s.nodup

theorem ascending_sorted (s : Finset α) : (ascending s).Pairwise (· ≤ ·) := by
  obtain ⟨⟨l⟩, _⟩ := s
  exact List.pairwise_insertionSort (· ≤ ·) l

theorem length_ascending (s : Finset α) : (ascending s).length = s.card := by
  rw [← Multiset.coe_card, ascending_perm]
  rfl

theorem ascending_eq_nil {s : Finset α} : ascending s = [] ↔ s = ∅ := by
  rw [← List.length_eq_zero_iff, length_ascending, Finset.card_eq_zero]

end Ascending

end Epilog.Lib.Query
