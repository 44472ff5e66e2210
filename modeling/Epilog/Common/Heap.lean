/- Module: Epilog/Common/Heap
   source: src/src/common/term.hpp, src/src/common/term.cpp (heap, naming_map),
     src/src/common/term_env.hpp
   digest: The heap of a term environment: allocation in blocks, atom tables, variable names. -/

import Epilog.Common.Term
import Epilog.Lib.FiniteMap

set_option autoImplicit false

namespace Epilog.Common.Heap

open Epilog.Common.Term Epilog.Lib.FiniteMap

/-- `heap_block::MAX_SIZE` -/
def BLOCK_SIZE : ℕ := 8192

/-- A term environment. The memory has a cell at every address; those that no allocation has
written yet hold whatever is there. -/
structure TermEnv where
  mem : ℕ → Cell
  size : ℕ
  atomIndexToName : FMap ℕ Bytes
  atomNameToIndex : FMap Bytes ℕ
  varNames : FMap ℕ Bytes

/-- The address of `n` cells in one block: they do not fit into the rest of the head block when
they would cross its end. -/
def allocAddr (size n : ℕ) : ℕ :=
  if size % BLOCK_SIZE = 0 ∨ size % BLOCK_SIZE + n ≤ BLOCK_SIZE then size
  else (size / BLOCK_SIZE + 1) * BLOCK_SIZE

theorem le_allocAddr (size n : ℕ) : size ≤ allocAddr size n := by
  unfold allocAddr BLOCK_SIZE
  split_ifs <;> omega

theorem allocAddr_one (size : ℕ) : allocAddr size 1 = size := by
  unfold allocAddr BLOCK_SIZE
  split_ifs <;> omega

namespace TermEnv

/-- `heap_set` -/
def set (env : TermEnv) (addr : ℕ) (c : Cell) : TermEnv :=
  { env with mem := Function.update env.mem addr c }

/-- A cell in the first place that leaves room for `room` cells in its block. -/
def append (env : TermEnv) (room : ℕ) (c : Cell) : ℕ × TermEnv :=
  let addr := allocAddr env.size room
  (addr, { env with mem := Function.update env.mem addr c, size := addr + 1 })

/-- `new_cell0`: a constant leaves room for its arguments. -/
def newCell0 (env : TermEnv) (c : Cell) : ℕ × TermEnv :=
  env.append (if c.tag = .CON then 1 + c.arity else 1) c

def newDatCell (env : TermEnv) (c : Cell) : TermEnv := (env.append 1 c).2

def newRef (env : TermEnv) : Cell × TermEnv :=
  let ref := Cell.make .REF (allocAddr env.size 1)
  (ref, (env.append 1 ref).2)

/-- `new_atom_default` and `resolve_atom_index` -/
def resolveAtomIndex (env : TermEnv) (name : Bytes) : ℕ × TermEnv :=
  match env.atomNameToIndex.lookup name with
  | some index => (index, env)
  | none =>
    let newIndex := env.atomNameToIndex.keys.card
    (newIndex, { env with
      atomNameToIndex := env.atomNameToIndex.insert name newIndex
      atomIndexToName := env.atomIndexToName.insert newIndex name })

def setName (env : TermEnv) (ref : Cell) (name : Bytes) : TermEnv :=
  { env with varNames := env.varNames.insert ref.index name }

/-- The atom tables are inverse to each other, and the indices are counted from zero. -/
structure AtomsOk (env : TermEnv) : Prop where
  inverse : ∀ name index, env.atomNameToIndex.lookup name = some index ↔
    env.atomIndexToName.lookup index = some name
  below : ∀ name index, env.atomNameToIndex.lookup name = some index →
    index < env.atomNameToIndex.keys.card

theorem resolveAtomIndex_ok {env : TermEnv} (ok : env.AtomsOk) (name : Bytes) :
    (env.resolveAtomIndex name).2.AtomsOk := by
  unfold resolveAtomIndex
  split
  case h_1 => exact ok
  case h_2 fresh =>
    have unused : env.atomIndexToName.lookup env.atomNameToIndex.keys.card = none := by
      cases taken : env.atomIndexToName.lookup env.atomNameToIndex.keys.card with
      | none => rfl
      | some other => exact absurd (ok.below _ _ ((ok.inverse _ _).2 taken)) (lt_irrefl _)
    constructor
    · intro other index
      simp only [lookup_insert_ite]
      split_ifs with sameName sameIndex sameIndex
      · simp [sameName, sameIndex]
      · rw [← ok.inverse, sameName, fresh]
        simp [Ne.symm sameIndex]
      · rw [sameIndex, ok.inverse, unused]
        simp [Ne.symm sameName]
      · exact ok.inverse other index
    · intro other index found
      simp only [lookup_insert_ite] at found
      simp only [card_keys_insert _ fresh]
      split_ifs at found
      · simp only [Option.some.injEq] at found
        omega
      · exact (ok.below other index found).trans (Nat.lt_succ_self _)

theorem lookup_resolveAtomIndex (env : TermEnv) (name : Bytes) :
    (env.resolveAtomIndex name).2.atomNameToIndex.lookup name =
      some (env.resolveAtomIndex name).1 := by
  unfold resolveAtomIndex
  split
  case h_1 index found => exact found
  case h_2 => simp

theorem lookup_resolveAtomIndex_of_some {env : TermEnv} {name other : Bytes} {index : ℕ}
    (known : env.atomNameToIndex.lookup other = some index) :
    (env.resolveAtomIndex name).2.atomNameToIndex.lookup other = some index := by
  unfold resolveAtomIndex
  split
  case h_1 => exact known
  case h_2 fresh =>
    simp only [lookup_insert_ite]
    split_ifs with same
    · rw [same, fresh] at known
      cases known
    · exact known

theorem card_resolveAtomIndex_le (env : TermEnv) (name : Bytes) :
    (env.resolveAtomIndex name).2.atomNameToIndex.keys.card ≤
      env.atomNameToIndex.keys.card + 1 := by
  unfold resolveAtomIndex
  split
  case h_1 => exact Nat.le_succ _
  case h_2 fresh => simp only [card_keys_insert _ fresh, le_refl]

end TermEnv

end Epilog.Common.Heap
