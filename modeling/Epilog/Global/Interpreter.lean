/- Module: Epilog/Global/Interpreter
   source: src/src/global/global_interpreter.hpp, src/src/global/global_interpreter.cpp,
     src/src/global/global.cpp (execute_commit), src/src/interp/builtins.cpp (retract)
   digest: The overlays of the global interpreter, what a goal does to them, and discard_changes. -/

import Epilog.Global.Closures
import Epilog.Global.Symbols

set_option autoImplicit false

namespace Epilog.Global.Interpreter

open Epilog.Common.Term Epilog.Lib.FiniteMap
open Epilog.Global.Closures hiding Failure Op step opened
open Epilog.Global.Symbols

section Heap

/-- Blocks of cells: those of the database, and those changed since the last commit. -/
structure HeapState where
  heapDb : FMap ℕ (List Cell)
  modifiedBlocks : FMap ℕ (List Cell)
  heapSize : ℕ
  oldHeapSize : ℕ

/-- `heap_block::MAX_SIZE` -/
def BLOCK_SIZE : ℕ := 8192

namespace HeapState

def findBlock (s : HeapState) (blockIndex : ℕ) : Option (List Cell) :=
  (s.modifiedBlocks.lookup blockIndex).orElse fun _ => s.heapDb.lookup blockIndex

/-- `heap_get` -/
def get (s : HeapState) (addr : ℕ) : Option Cell :=
  if addr < s.heapSize then
    (s.findBlock (addr / BLOCK_SIZE)).bind fun block => block[addr % BLOCK_SIZE]?
  else none

/-- `heap_set`: the first write to a block makes it a modified block. -/
def set (s : HeapState) (addr : ℕ) (c : Cell) : HeapState :=
  let blockIndex := addr / BLOCK_SIZE
  let block := (s.findBlock blockIndex).getD []
  { s with
    modifiedBlocks := s.modifiedBlocks.insert blockIndex (block.set (addr % BLOCK_SIZE) c) }

def lastBlockIndex (s : HeapState) : ℕ :=
  if s.heapSize = 0 then 0 else (s.heapSize - 1) / BLOCK_SIZE

/-- `allocate`: cells that do not fit into the head block start a new one. -/
def allocate (s : HeapState) (cells : List Cell) : HeapState :=
  let headIndex := s.lastBlockIndex
  let head := (s.findBlock headIndex).getD []
  if head.length + cells.length ≤ BLOCK_SIZE then
    { s with
      modifiedBlocks := s.modifiedBlocks.insert headIndex (head ++ cells)
      heapSize := headIndex * BLOCK_SIZE + head.length + cells.length }
  else
    { s with
      modifiedBlocks := s.modifiedBlocks.insert (headIndex + 1) cells
      heapSize := (headIndex + 1) * BLOCK_SIZE + cells.length }

/-- The modified blocks are dropped and the head block is read from the database again. -/
def discard (s : HeapState) : HeapState :=
  let headIndex := if s.oldHeapSize = 0 then 0 else (s.oldHeapSize - 1) / BLOCK_SIZE
  { s with
    modifiedBlocks := ∅
    heapSize := match s.heapDb.lookup headIndex with
      | some head => headIndex * BLOCK_SIZE + head.length
      | none => s.oldHeapSize }

end HeapState

end Heap

section Predicates

/-- `qname`: module and functor -/
abbrev Qname := Cell × Cell

abbrev Clauses := List Cell

structure PredicateState where
  predicatesDb : FMap Qname Clauses
  programDb : FMap Qname Clauses
  updatedPredicates : List Qname
  oldPredicates : List (Qname × Clauses)
  newPredicates : ℤ

def SYSTEM : Cell := Cell.conOfName (Cell.ascii "system") 0

/-- `load_predicate`: a predicate that is not in the database may be inherited from `system`. -/
def loadPredicate (db : FMap Qname Clauses) (qn : Qname) : Clauses :=
  match db.lookup qn with
  | some clauses => clauses
  | none => (db.lookup (SYSTEM, qn.2)).getD []

/-- A predicate without clauses in memory is filled from the database. -/
def loaded (db : FMap Qname Clauses) (qn : Qname) (clauses : Clauses) : Clauses :=
  if clauses = [] then loadPredicate db qn else clauses

namespace PredicateState

def inMemory (s : PredicateState) (qn : Qname) : Clauses := (s.programDb.lookup qn).getD []

/-- The clauses `get_predicate` finds. -/
def clauses (s : PredicateState) (qn : Qname) : Clauses :=
  loaded s.predicatesDb qn (s.inMemory qn)

def getPredicate (s : PredicateState) (qn : Qname) : PredicateState :=
  { s with programDb := s.programDb.insert qn (s.clauses qn) }

def updatedPredicatePre (s : PredicateState) (qn : Qname) : PredicateState :=
  match s.programDb.lookup qn with
  | some p =>
    { s with
      newPredicates := if p = [] then s.newPredicates + 1 else s.newPredicates
      oldPredicates := s.oldPredicates ++ [(qn, p)] }
  | none => { s with newPredicates := s.newPredicates + 1 }

def updatedPredicatePost (s : PredicateState) (qn : Qname) : PredicateState :=
  { s with
    newPredicates := if s.inMemory qn = [] then s.newPredicates - 1 else s.newPredicates
    updatedPredicates := s.updatedPredicates ++ [qn] }

def change (s : PredicateState) (qn : Qname) (f : Clauses → Clauses) : PredicateState :=
  { s with programDb := s.programDb.insert qn (f (s.inMemory qn)) }

/-- `load_clause`, `remove_clauses` and `retractall/1` -/
def update (s : PredicateState) (qn : Qname) (f : Clauses → Clauses) : PredicateState :=
  (((s.getPredicate qn).updatedPredicatePre qn).change qn f).updatedPredicatePost qn

/-- `retract/1` removes its clause without telling. -/
def retract (s : PredicateState) (qn : Qname) (f : Clauses → Clauses) : PredicateState :=
  (s.getPredicate qn).change qn f

/-- `clear_predicate` and `restore_predicate` over the lists of updates -/
def discard (s : PredicateState) : PredicateState :=
  let cleared := s.updatedPredicates.foldl (fun m qn => m.erase qn) s.programDb
  let restored := s.oldPredicates.foldl (fun m p => m.insert p.1 p.2) cleared
  { s with
    programDb := restored, updatedPredicates := [], oldPredicates := [], newPredicates := 0 }

end PredicateState

end Predicates

section Names

def atomName (s : SymbolState) (index : ℕ) : Except Failure SymbolState :=
  if index ∈ s.atomIndexToName then .ok s else loadAtomName s index

def resolveAtomIndex (s : SymbolState) (name : Bytes) : Except Failure SymbolState := do
  let s ← loadAtomIndex s name
  if name ∈ s.atomNameToIndex then return s
  else
    let (index, s) ← newAtom s name
    return setAtomIndex s name index

end Names

section State

/-- The state of the global interpreter that outlives a goal. -/
structure GlobalState where
  heap : HeapState
  trail : List ℕ
  stack : List Cell
  symbols : SymbolState
  predicates : PredicateState
  nextPredicateId : ℕ
  startNextPredicateId : ℕ
  closures : ClosureState

/-- What a goal can do to the state, its unwinding by `reset` included. -/
inductive Effect
  | heapSet (addr : ℕ) (c : Cell)
  | allocate (cells : List Cell)
  | trail (addrs : List ℕ)
  | stack (words : List Cell)
  | atomName (index : ℕ)
  | resolveAtomIndex (name : Bytes)
  | getPredicate (qn : Qname)
  | updatePredicate (qn : Qname) (change : Clauses → Clauses)
  | retract (qn : Qname) (change : Clauses → Clauses)
  | uniquePredicateId
  | setFrozenClosure (addr : ℕ) (closure : Closure)
  | clearFrozenClosure (addr : ℕ)

def perform (s : GlobalState) : Effect → Except Failure GlobalState
  | .heapSet addr c => .ok { s with heap := s.heap.set addr c }
  | .allocate cells => .ok { s with heap := s.heap.allocate cells }
  | .trail addrs => .ok { s with trail := addrs }
  | .stack words => .ok { s with stack := words }
  | .atomName index => (atomName s.symbols index).map fun symbols => { s with symbols }
  | .resolveAtomIndex name =>
      (resolveAtomIndex s.symbols name).map fun symbols => { s with symbols }
  | .getPredicate qn => .ok { s with predicates := s.predicates.getPredicate qn }
  | .updatePredicate qn change => .ok { s with predicates := s.predicates.update qn change }
  | .retract qn change => .ok { s with predicates := s.predicates.retract qn change }
  | .uniquePredicateId => .ok { s with nextPredicateId := s.nextPredicateId + 1 }
  | .setFrozenClosure addr closure =>
      .ok { s with closures := setFrozenClosure s.closures addr closure }
  | .clearFrozenClosure addr => .ok { s with closures := clearFrozenClosure s.closures addr }

/-- A goal up to its end. A thrown exception is not a result of the goal. -/
def performGoal (s : GlobalState) : List Effect → Except Failure GlobalState
  | [] => .ok s
  | effect :: goal => do performGoal (← perform s effect) goal

/-- `get_frozen_closures` over a range above the addresses in the database -/
def getFrozenClosures (s : ClosureState) (fromAddr toAddr : ℕ) : List ℕ :=
  (s.modifiedClosures.keys.filter fun addr => fromAddr ≤ addr ∧ addr < toAddr ∧
    s.modifiedClosures.lookup addr ≠ some none').sort (· ≤ ·)

/-- The part of `trim_heap_safe` for closures. -/
def trimClosures (s : ClosureState) (newSize currentSize : ℕ) : ClosureState :=
  (getFrozenClosures s newSize currentSize).foldl clearFrozenClosure s

def discardChanges (s : GlobalState) : GlobalState :=
  { s with
    heap := s.heap.discard
    trail := []
    stack := []
    symbols := discardSymbols s.symbols
    predicates := s.predicates.discard
    nextPredicateId := s.startNextPredicateId
    closures :=
      { trimClosures s.closures s.heap.oldHeapSize s.heap.heapSize with modifiedClosures := ∅ } }

/-- `execute_commit` of a goal that fails: the goal has run and been unwound. -/
def executeCommitFailing (s : GlobalState) (goal : List Effect) : Except Failure GlobalState :=
  (performGoal s goal).map discardChanges

def numPredicates (s : GlobalState) : ℤ :=
  s.predicates.predicatesDb.keys.card + s.predicates.newPredicates

end State

end Epilog.Global.Interpreter
