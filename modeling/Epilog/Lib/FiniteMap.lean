/- Module: Epilog/Lib/FiniteMap
   source: none (library)
   digest: Finite maps: what insertion and removal do to lookups and to the set of keys. -/

import Mathlib.Data.Finmap

set_option autoImplicit false

namespace Epilog.Lib.FiniteMap

variable {κ β : Type} [DecidableEq κ]

/-- A finite map whose values have one type. -/
abbrev FMap (κ β : Type) := Finmap fun _ : κ => β

theorem lookup_insert_ite (m : FMap κ β) (k a : κ) (b : β) :
    (m.insert k b).lookup a = if a = k then some b else m.lookup a := by
  split
  case isTrue same =>
    subst same
    exact Finmap.lookup_insert m
  case isFalse other => exact Finmap.lookup_insert_of_ne m other

theorem lookup_erase_ite (m : FMap κ β) (k a : κ) :
    (m.erase k).lookup a = if a = k then none else m.lookup a := by
  split
  case isTrue same =>
    subst same
    exact Finmap.lookup_erase a m
  case isFalse other => exact Finmap.lookup_erase_ne other

theorem keys_insert (m : FMap κ β) (k : κ) (b : β) : (m.insert k b).keys = insert k m.keys := by
  ext a
  rw [Finmap.mem_keys, Finmap.mem_insert, Finset.mem_insert, Finmap.mem_keys]

theorem card_keys_insert {m : FMap κ β} {k : κ} (b : β) (fresh : m.lookup k = none) :
    (m.insert k b).keys.card = m.keys.card + 1 := by
  rw [keys_insert, Finset.card_insert_of_notMem]
  rw [Finmap.mem_keys]
  exact Finmap.lookup_eq_none.1 fresh

theorem erase_of_lookup_none {m : FMap κ β} {k : κ} (absent : m.lookup k = none) :
    m.erase k = m := by
  apply Finmap.ext_lookup
  intro a
  rw [lookup_erase_ite]
  split
  case isTrue here => rw [here, absent]
  case isFalse => rfl

/-- Inserting what is there changes nothing. -/
theorem insert_of_lookup {m : FMap κ β} {k : κ} {b : β} (found : m.lookup k = some b) :
    m.insert k b = m := by
  apply Finmap.ext_lookup
  intro a
  rw [lookup_insert_ite]
  split
  case isTrue here => rw [here, found]
  case isFalse => rfl

theorem lookup_erase_some {m : FMap κ β} {k a : κ} {b : β}
    (found : (m.erase k).lookup a = some b) : m.lookup a = some b := by
  rw [lookup_erase_ite] at found
  split at found
  case isTrue => exact nomatch found
  case isFalse => exact found

end Epilog.Lib.FiniteMap
