/- Module: Epilog/Global/FrozenRange
   source: src/src/global/global_interpreter.cpp (get_frozen_closures)
   digest: The overlay of the closure database, in ascending order of the addresses. -/

import Epilog.Global.Closures

set_option autoImplicit false

namespace Epilog.Global.FrozenRange

open Epilog.Common.Term Epilog.Lib.FiniteMap Epilog.Global.Closures

/-- The overlay as its iterators see it: the addresses in ascending order. -/
def entries (modified : AddrMap Cell) : List (ℕ × Cell) :=
  (modified.keys.sort (· ≤ ·)).filterMap fun addr => (modified.lookup addr).map (Prod.mk addr)

variable {modified : AddrMap Cell}

theorem mem_entries {addr : ℕ} {cl : Cell} :
    (addr, cl) ∈ entries modified ↔ modified.lookup addr = some cl := by
  simp only [entries, List.mem_filterMap, Finset.mem_sort, Finmap.mem_keys,
    Option.map_eq_some_iff, Prod.mk.injEq]
  constructor
  · rintro ⟨_, -, _, found, rfl, rfl⟩
    exact found
  · intro found
    exact ⟨addr, Finmap.lookup_isSome.1 (by rw [found]; rfl), cl, found, rfl, rfl⟩

theorem entries_pairwise (modified : AddrMap Cell) :
    (entries modified).Pairwise fun x y => x.1 < y.1 := by
  unfold entries
  rw [List.pairwise_filterMap]
  refine (Finset.sortedLT_sort modified.keys).pairwise.imp ?_
  intro a b less x found y found'
  obtain ⟨v, -, rfl⟩ := Option.map_eq_some_iff.1 found
  obtain ⟨w, -, rfl⟩ := Option.map_eq_some_iff.1 found'
  exact less

end Epilog.Global.FrozenRange
