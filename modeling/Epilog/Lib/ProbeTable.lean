/- Module: Epilog/Lib/ProbeTable
   source: none (library)
   digest: Tables with probing, whose entries tell their own names and are never taken out. -/

import Epilog.Lib.FiniteMap

set_option autoImplicit false

namespace Epilog.Lib.ProbeTable

open Epilog.Lib.FiniteMap

variable {κ ν δ : Type} [DecidableEq κ] [DecidableEq ν] (keys : ν → List κ) (name : δ → ν)

/-- The first of the keys at which there is nothing or an entry of this name. -/
def firstSlot (m : FMap κ δ) (n : ν) : List κ → Option κ
  | [] => none
  | k :: ks =>
    match m.lookup k with
    | none => some k
    | some d => if name d = n then some k else firstSlot m n ks

def slot (m : FMap κ δ) (n : ν) : Option κ := firstSlot name m n (keys n)

def get (m : FMap κ δ) (n : ν) : Option δ := (slot keys name m n).bind fun k => m.lookup k

/-- Nothing is stored where there is no slot. -/
def set (m : FMap κ δ) (n : ν) (d : δ) : FMap κ δ :=
  match slot keys name m n with
  | none => m
  | some k => m.insert k d

/-- Every entry is in the slot of its name. -/
def Probed (m : FMap κ δ) : Prop :=
  ∀ k d, m.lookup k = some d → slot keys name m (name d) = some k

variable {keys name} {m : FMap κ δ} {n : ν} {k : κ} {d : δ}

theorem firstSlot_mem {ks : List κ} (first : firstSlot name m n ks = some k) : k ∈ ks := by
  induction ks with
  | nil => exact nomatch first
  | cons h ks ih =>
    unfold firstSlot at first
    split at first
    · exact Option.some.inj first ▸ List.mem_cons_self
    · split_ifs at first
      · exact Option.some.inj first ▸ List.mem_cons_self
      · exact List.mem_cons_of_mem h (ih first)

/-- What is found in the slot has the name. -/
theorem firstSlot_name {ks : List κ} (first : firstSlot name m n ks = some k)
    (found : m.lookup k = some d) : name d = n := by
  induction ks with
  | nil => exact nomatch first
  | cons h ks ih =>
    unfold firstSlot at first
    split at first
    case h_1 empty =>
      rw [Option.some.inj first, found] at empty
      exact nomatch empty
    case h_2 d' here =>
      split_ifs at first with same
      · rw [Option.some.inj first, found] at here
        exact Option.some.inj here ▸ same
      · exact ih first

/-- Writing an entry into its slot leaves the slot of every entry as it was. -/
theorem firstSlot_insert {n' : ν} {k' : κ} {ks : List κ}
    (free : ∀ d', m.lookup k = some d' → name d' = n) (named : name d = n)
    (first : firstSlot name m n' ks = some k')
    (occupied : k' = k ∧ n' = n ∨ (m.lookup k').isSome) :
    firstSlot name (m.insert k d) n' ks = some k' := by
  induction ks with
  | nil => exact nomatch first
  | cons h ks ih =>
    unfold firstSlot at first ⊢
    rw [lookup_insert_ite]
    by_cases here : h = k
    · subst here
      rw [if_pos rfl]
      dsimp only
      split at first
      case h_1 empty =>
        rcases occupied with ⟨_, same⟩ | occupied
        · rw [if_pos (named.trans same.symm)]
          exact first
        · rw [← Option.some.inj first, empty] at occupied
          exact nomatch occupied
      case h_2 d' found =>
        rw [free d' found] at first
        rw [named]
        split_ifs at first ⊢
        · exact first
        · exact ih first
    · rw [if_neg here]
      split at first
      · exact first
      · split_ifs at first ⊢
        · exact first
        · exact ih first

theorem slot_free (atSlot : slot keys name m n = some k) :
    ∀ d', m.lookup k = some d' → name d' = n := fun _ found => firstSlot_name atSlot found

theorem get_eq_some_iff (probed : Probed keys name m) :
    get keys name m n = some d ↔ name d = n ∧ ∃ k, m.lookup k = some d := by
  constructor
  · intro got
    obtain ⟨k, atSlot, found⟩ := Option.bind_eq_some_iff.1 got
    exact ⟨firstSlot_name atSlot found, k, found⟩
  · rintro ⟨rfl, k, found⟩
    exact Option.bind_eq_some_iff.2 ⟨k, probed k d found, found⟩

theorem Probed.set (probed : Probed keys name m) (named : name d = n) :
    Probed keys name (set keys name m n d) := by
  unfold ProbeTable.set
  split
  · exact probed
  case h_2 k atSlot =>
    intro k' d' found
    have free := slot_free atSlot
    rw [lookup_insert_ite] at found
    split_ifs at found with here
    · obtain rfl := Option.some.inj found
      subst here
      exact firstSlot_insert free named (named.symm ▸ atSlot) (.inl ⟨rfl, named⟩)
    · exact firstSlot_insert free named (probed k' d' found) (.inr (by rw [found]; rfl))

/-- What is stored is found, where there is a slot for it. -/
theorem get_set_self (probed : Probed keys name m) (named : name d = n)
    (room : slot keys name m n ≠ none) : get keys name (set keys name m n d) n = some d := by
  rw [get_eq_some_iff (probed.set named)]
  obtain ⟨k, atSlot⟩ := Option.ne_none_iff_exists'.1 room
  refine ⟨named, k, ?_⟩
  rw [ProbeTable.set, atSlot, lookup_insert_ite, if_pos rfl]

/-- What other names find stays as it is. -/
theorem get_set_of_ne (probed : Probed keys name m) (named : name d = n) {n' : ν} (other : n' ≠ n) :
    get keys name (set keys name m n d) n' = get keys name m n' := by
  apply Option.ext
  intro d'
  rw [get_eq_some_iff (probed.set named), get_eq_some_iff probed]
  refine and_congr_right fun named' => exists_congr fun k' => ?_
  unfold ProbeTable.set
  split
  · rfl
  case h_2 k atSlot =>
    rw [lookup_insert_ite]
    split_ifs with here
    · subst here
      refine ⟨fun found => ?_, fun found => ?_⟩
      · rw [← Option.some.inj found, named] at named'
        exact absurd named'.symm other
      · exact absurd (named'.symm.trans (slot_free atSlot d' found)) other
    · rfl

/-- Each of the names has a key that it shares with no other of them. -/
def Roomy (keys : ν → List κ) (names : Set ν) : Prop :=
  ∀ n ∈ names, ∃ k ∈ keys n, ∀ n' ∈ names, n' ≠ n → k ∉ keys n'

theorem firstSlot_none {ks : List κ} (none : firstSlot name m n ks = none) (k : κ) (mem : k ∈ ks) :
    ∃ d, m.lookup k = some d ∧ name d ≠ n := by
  induction ks with
  | nil => exact nomatch mem
  | cons h ks ih =>
    unfold firstSlot at none
    split at none
    · exact nomatch none
    case h_2 d found =>
      split_ifs at none with same
      rcases List.mem_cons.1 mem with rfl | mem
      · exact ⟨d, found, same⟩
      · exact ih none mem

/-- There is a slot for each of the names while only these are stored. -/
theorem slot_of_roomy (probed : Probed keys name m) {names : Set ν} (roomy : Roomy keys names)
    (known : ∀ k d, m.lookup k = some d → name d ∈ names) (member : n ∈ names) :
    slot keys name m n ≠ none := by
  intro none
  obtain ⟨k, mem, own⟩ := roomy n member
  obtain ⟨d, found, other⟩ := firstSlot_none none k mem
  exact own (name d) (known k d found) other (firstSlot_mem (probed k d found))

end Epilog.Lib.ProbeTable
