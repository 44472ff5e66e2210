/- Module: Epilog/Lib/StableSort
   source: none (library)
   digest: Stable sorting with a comparison that needs fuel, and removal of equal neighbours. -/

import Epilog.Lib.Fuel
import Mathlib.Data.List.Destutter
import Mathlib.Data.List.Sort

set_option autoImplicit false

namespace Epilog.Lib.StableSort

open Epilog.Lib.Fuel

variable {α κ : Type}

section Sorting

variable (less : α → α → Option Bool)

/-- An element goes before the first one that is not less. -/
def insertBy (a : α) : List α → Option (List α)
  | [] => some [a]
  | b :: l => do
    if ← less b a then return b :: (← insertBy a l)
    else return a :: b :: l

def stableSort : List α → Option (List α)
  | [] => some []
  | a :: l => do insertBy less a (← stableSort l)

end Sorting

variable {less : ℕ → α → α → Option Bool}

theorem insertBy_lasting (lasting : ∀ a b, Lasting fun n => less n a b) (a : α) (l : List α) :
    Lasting fun n => insertBy (less n) a l := by
  induction l with
  | nil => exact .const _
  | cons b l ih =>
    refine (lasting b a).bind fun before => ?_
    cases before with
    | false => exact .const _
    | true => exact ih.bind fun _ => .const _

theorem stableSort_lasting (lasting : ∀ a b, Lasting fun n => less n a b) (l : List α) :
    Lasting fun n => stableSort (less n) l := by
  induction l with
  | nil => exact .const _
  | cons a l ih => exact ih.bind fun sorted => insertBy_lasting lasting a sorted

/-- A comparison that answers by a relation inserts as it says. -/
theorem finds_insertBy (lasting : ∀ a b, Lasting fun n => less n a b) (r : α → α → Prop)
    [DecidableRel r] {a : α} {l : List α}
    (answers : ∀ b ∈ l, Finds (fun n => less n b a) (decide (¬ r a b))) :
    Finds (fun n => insertBy (less n) a l) (l.orderedInsert r a) := by
  induction l with
  | nil => exact ⟨0, rfl⟩
  | cons b l ih =>
    have first := answers b List.mem_cons_self
    have later := ih fun c inside => answers c (List.mem_cons_of_mem b inside)
    by_cases before : r a b
    · rw [List.orderedInsert_cons, if_pos before]
      rw [decide_eq_false (not_not.2 before)] at first
      exact finds_bind (lasting b a) (.const _) first ⟨0, rfl⟩
    · rw [List.orderedInsert_cons, if_neg before]
      rw [decide_eq_true before] at first
      have goOn : Finds (fun n => do return b :: (← insertBy (less n) a l))
          (b :: l.orderedInsert r a) :=
        finds_bind (insertBy_lasting lasting a l) (.const _) later ⟨0, rfl⟩
      exact finds_bind (f := fun before n => if before = true then do
          return b :: (← insertBy (less n) a l) else return a :: b :: l)
        (lasting b a) (.ite ((insertBy_lasting lasting a l).bind fun _ => .const _) (.const _))
        first goOn

theorem finds_stableSort (lasting : ∀ a b, Lasting fun n => less n a b) (r : α → α → Prop)
    [DecidableRel r] {l : List α}
    (answers : ∀ a ∈ l, ∀ b ∈ l, Finds (fun n => less n b a) (decide (¬ r a b))) :
    Finds (fun n => stableSort (less n) l) (l.insertionSort r) := by
  induction l with
  | nil => exact ⟨0, rfl⟩
  | cons a l ih =>
    have later := ih fun b inside c inside' =>
      answers b (List.mem_cons_of_mem a inside) c (List.mem_cons_of_mem a inside')
    rw [List.insertionSort_cons]
    refine finds_bind (stableSort_lasting lasting l) (insertBy_lasting lasting a _) later ?_
    refine finds_insertBy lasting r fun b inside => answers a List.mem_cons_self b ?_
    exact List.mem_cons_of_mem a ((List.mem_insertionSort r).1 inside)

/-- A comparison that always answers sorts, whatever it answers. -/
theorem finds_some_sort (lasting : ∀ a b, Lasting fun n => less n a b) {l : List α}
    (answers : ∀ a ∈ l, ∀ b ∈ l, ∃ r, Finds (fun n => less n b a) r) :
    ∃ sorted, Finds (fun n => stableSort (less n) l) sorted ∧ sorted.Perm l := by
  classical
  let r : α → α → Prop := fun a b => ¬ Finds (fun n => less n b a) true
  refine ⟨_, finds_stableSort lasting r fun a inside b inside' => ?_, List.perm_insertionSort r l⟩
  obtain ⟨answer, found⟩ := answers a inside b inside'
  have same : decide (¬ r a b) = answer := by
    cases answer with
    | true => exact decide_eq_true (not_not.2 found)
    | false =>
      refine decide_eq_false (not_not.2 fun other => ?_)
      exact nomatch other.unique (lasting b a) found
  rwa [same]

section Neighbours

variable [DecidableEq α]

/-- The list without the elements that are equal to the one before -/
def unique (l : List α) : List α := l.destutter (· ≠ ·)

theorem mem_destutter_ne {a b : α} {l : List α} :
    a ∈ l.destutter' (· ≠ ·) b ↔ a = b ∨ a ∈ l := by
  induction l generalizing b with
  | nil => simp
  | cons c l ih =>
    by_cases same : b = c
    · subst same
      rw [List.destutter'_cons_neg _ (not_not.2 rfl), ih, List.mem_cons]
      tauto
    · rw [List.destutter'_cons_pos _ same, List.mem_cons, ih, List.mem_cons]

theorem mem_unique {a : α} {l : List α} : a ∈ unique l ↔ a ∈ l := by
  cases l with
  | nil => rfl
  | cons b l =>
    unfold unique
    rw [List.destutter_cons', mem_destutter_ne, List.mem_cons]

/-- In a sorted list whose different elements have different keys, what is left is sorted
strictly. -/
theorem unique_strict [LinearOrder κ] (key : α → κ) {l : List α}
    (sorted : l.Pairwise fun a b => key a ≤ key b)
    (apart : ∀ a ∈ l, ∀ b ∈ l, a ≠ b → key a ≠ key b) :
    (unique l).Pairwise fun a b => key a < key b := by
  have below : (unique l).Pairwise fun a b => key a ≤ key b :=
    sorted.sublist (List.destutter_sublist _ l)
  have neighbours : (unique l).IsChain (· ≠ ·) := List.isChain_destutter _ l
  have inside : ∀ a ∈ unique l, a ∈ l := fun a => mem_unique.1
  generalize unique l = u at below neighbours inside
  have strict : u.IsChain fun a b => key a < key b := by
    induction u with
    | nil => exact .nil
    | cons a u ih =>
      obtain ⟨first, below⟩ := List.pairwise_cons.1 below
      cases u with
      | nil => exact .singleton a
      | cons b u =>
        obtain ⟨differ, neighbours⟩ := List.isChain_cons_cons.1 neighbours
        have here := inside a List.mem_cons_self
        have next := inside b (List.mem_cons_of_mem a List.mem_cons_self)
        refine List.isChain_cons_cons.2 ⟨?_, ih below neighbours fun c member =>
          inside c (List.mem_cons_of_mem a member)⟩
        exact lt_of_le_of_ne (first b List.mem_cons_self) (apart a here b next differ)
  have trans : IsTrans α fun a b => key a < key b := ⟨fun a b c => lt_trans⟩
  exact List.isChain_iff_pairwise.1 strict

end Neighbours

end Epilog.Lib.StableSort
