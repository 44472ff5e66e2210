/- Module: Epilog/Lib/PathWalk
   source: none (library)
   digest: Depth-first walks of a graph along a path of nodes, and how they come to an end. -/

import Epilog.Lib.Fuel
import Mathlib.Algebra.GroupWithZero.Nat
import Mathlib.Data.Finset.Card
import Mathlib.Logic.Relation

set_option autoImplicit false

namespace Epilog.Lib.PathWalk

open Relation Epilog.Lib.Fuel

section Graph

variable {N : Type} (below : N → List N)

/-- `m` is right below `n`. -/
abbrev Under (n m : N) : Prop := m ∈ below n

/-- A node that is reached from `n` is below itself. -/
def Repeats (n : N) : Prop := ∃ m, ReflTransGen (Under below) n m ∧ TransGen (Under below) m m

variable {below} {n m : N}

theorem Repeats.up (repeats : Repeats below m) (under : m ∈ below n) : Repeats below n := by
  obtain ⟨o, reach, circle⟩ := repeats
  exact ⟨o, .head under reach, circle⟩

end Graph

section Walks

variable {N : Type} [DecidableEq N] (below : N → List N) (closes : N → Prop)

/-- The turns that a walk spends on some of the nodes below one: those on each, and one back at
the node above. -/
def turnsOn (count : N → ℕ) (nodes : List N) : ℕ := (nodes.map fun m => count m + 1).sum

/-- The walk of `n` under the nodes of `path` goes through all that is below and takes `k` turns:
it comes to no node of the path and to none where it closes. -/
inductive Passes : Finset N → N → ℕ → Prop
  | node {path : Finset N} {n : N} (count : N → ℕ) (fresh : n ∉ path) (goesOn : ¬ closes n)
      (all : ∀ m ∈ below n, Passes (insert n path) m (count m)) :
      Passes path n (1 + turnsOn count (below n))

/-- The walk comes to a node of its own path after `k` turns. -/
inductive Arrives : Finset N → N → ℕ → Prop
  | here {path : Finset N} {n : N} (met : n ∈ path) : Arrives path n 0
  | inside {path : Finset N} {n m : N} {before after : List N} {k : ℕ} (count : N → ℕ)
      (fresh : n ∉ path) (goesOn : ¬ closes n) (split : below n = before ++ m :: after)
      (all : ∀ b ∈ before, Passes below closes (insert n path) b (count b))
      (later : Arrives (insert n path) m k) : Arrives path n (1 + turnsOn count before + k)

/-- The walk comes to a node where it closes after `k` turns. -/
inductive Closes : Finset N → N → ℕ → Prop
  | here {path : Finset N} {n : N} (fresh : n ∉ path) (closed : closes n) : Closes path n 0
  | inside {path : Finset N} {n m : N} {before after : List N} {k : ℕ} (count : N → ℕ)
      (fresh : n ∉ path) (goesOn : ¬ closes n) (split : below n = before ++ m :: after)
      (all : ∀ b ∈ before, Passes below closes (insert n path) b (count b))
      (later : Closes (insert n path) m k) : Closes path n (1 + turnsOn count before + k)

variable {below closes} {path : Finset N} {n m : N} {k : ℕ}

/-- A walk that comes to a node of its path has found a repetition, or a way back to the path it
started with. -/
theorem Arrives.found (arrives : Arrives below closes path n k) :
    Repeats below n ∨ ∃ p ∈ path, ReflTransGen (Under below) n p := by
  induction arrives with
  | here met => exact .inr ⟨_, met, .refl⟩
  | @inside path n m before after k count fresh goesOn split all later ih =>
    have under : m ∈ below n := by
      rw [split]
      exact List.mem_append_right _ List.mem_cons_self
    rcases ih with repeats | ⟨p, met, back⟩
    · exact .inl (repeats.up under)
    · obtain rfl | met := Finset.mem_insert.1 met
      · exact .inl ⟨p, .refl, .head' under back⟩
      · exact .inr ⟨p, met, .head under back⟩

/-- Walks of a graph with finitely many inner nodes come to an end. -/
theorem passes_or_ends {inner : Finset N} {good : N → Prop}
    (down : ∀ n, good n → ∀ m ∈ below n, good m)
    (finite : ∀ n, good n → below n ≠ [] → n ∈ inner) (path : Finset N) {n : N} (start : good n) :
    (∃ k, Passes below closes path n k) ∨
      (∃ k, Arrives below closes path n k) ∨ ∃ k, Closes below closes path n k := by
  induction left : (inner \ path).card using Nat.strong_induction_on generalizing path n with
  | _ size ih =>
    by_cases met : n ∈ path
    · exact .inr (.inl ⟨0, .here met⟩)
    by_cases closed : closes n
    · exact .inr (.inr ⟨0, .here met closed⟩)
    -- the walks below have one node more on their path
    have each : ∀ m ∈ below n, (∃ k, Passes below closes (insert n path) m k) ∨
        ((∃ k, Arrives below closes (insert n path) m k) ∨
          ∃ k, Closes below closes (insert n path) m k) := by
      intro m under
      have inside : n ∈ inner := finite n start (List.ne_nil_of_mem under)
      have fewer : (inner \ insert n path).card < size := by
        rw [← left]
        apply Finset.card_lt_card
        rw [Finset.sdiff_insert]
        exact Finset.erase_ssubset (Finset.mem_sdiff.2 ⟨inside, met⟩)
      exact ih _ fewer (insert n path) (down n start m under) rfl
    rcases all_or_first each with all | ⟨before, m, after, split, all, ends⟩
    · choose! count all using all
      exact .inl ⟨_, .node count met closed all⟩
    · choose! count all using all
      rcases ends with ⟨k, arrives⟩ | ⟨k, closes⟩
      · exact .inr (.inl ⟨_, .inside count met closed split all arrives⟩)
      · exact .inr (.inr ⟨_, .inside count met closed split all closes⟩)

end Walks

end Epilog.Lib.PathWalk
