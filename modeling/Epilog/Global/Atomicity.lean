/- Module: Epilog/Global/Atomicity
   source: src/src/global/global_interpreter.cpp (discard_changes), src/src/global/global.cpp
   digest: When a failed transaction leaves the state of the global interpreter as it was. -/

import Epilog.Global.Interpreter
import Epilog.Lib.Run

set_option autoImplicit false

namespace Epilog.Global.Atomicity

open Epilog.Common.Term Epilog.Lib.FiniteMap Epilog.Lib.Run Epilog.Global.Interpreter
open Epilog.Global.Closures hiding Failure Op step opened
open Epilog.Global.Symbols

section Statement

/-- The name behind an atom index: what memory says, or else the database. -/
def nameOf (s : SymbolState) (index : ℕ) : Except Failure Bytes :=
  match s.atomIndexToName.lookup index with
  | some name => .ok name
  | none => dbGetSymbolName s.symbolsDb index

/-- The index of a name: that of a new atom, or else what the database says (0 for none). -/
def indexOf (s : SymbolState) (name : Bytes) : Except Failure ℕ :=
  if name ∈ s.newAtomIndices then .ok ((s.atomNameToIndex.lookup name).getD 0)
  else dbGetSymbolIndex s.symbolsDb name

/-- The consensus-relevant state of `s'` is that of `s`. -/
structure Restored (s s' : GlobalState) : Prop where
  heapSize : s'.heap.heapSize = s.heap.heapSize
  heap : ∀ addr, s'.heap.get addr = s.heap.get addr
  trail : s'.trail = s.trail
  stack : s'.stack = s.stack
  atomNames : ∀ index, nameOf s'.symbols index = nameOf s.symbols index
  atomIndices : ∀ name, indexOf s'.symbols name = indexOf s.symbols name
  newAtomIndices : s'.symbols.newAtomIndices = s.symbols.newAtomIndices
  nextAtomId : s'.symbols.nextAtomId = s.symbols.nextAtomId
  nextPredicateId : s'.nextPredicateId = s.nextPredicateId
  predicates : ∀ qn, s'.predicates.clauses qn = s.predicates.clauses qn
  updatedPredicates : s'.predicates.updatedPredicates = s.predicates.updatedPredicates
  closures : s'.closures.modifiedClosures = s.closures.modifiedClosures
  closureDb : s'.closures.closureDb = s.closures.closureDb
  numFrozenClosures : numFrozenClosures s'.closures = numFrozenClosures s.closures
  numSymbols : numSymbols s'.symbols = numSymbols s.symbols
  numPredicates : numPredicates s' = numPredicates s

/-- What holds between transactions: a symbol found in the database has its own name in memory,
predicates are saved only when they are updated, and closures of the database lie below the
committed heap. -/
structure Coherent (s : GlobalState) : Prop where
  symbols : ∀ name index, dbGetSymbolIndex s.symbols.symbolsDb name = .ok index → index ≠ 0 →
    nameOf s.symbols index = .ok name
  saved : s.predicates.updatedPredicates = [] → s.predicates.oldPredicates = []
  closures : ∀ addr ∈ s.closures.closureDb, addr < s.heap.oldHeapSize

def heapEffect (s : HeapState) : Effect → HeapState
  | .heapSet addr c => s.set addr c
  | .allocate cells => s.allocate cells
  | _ => s

def closureEffect (s : ClosureState) : Effect → ClosureState
  | .setFrozenClosure addr closure => setFrozenClosure s addr closure
  | .clearFrozenClosure addr => clearFrozenClosure s addr
  | _ => s

/-- How many more closures a goal sets than it, its unwinding and the trimming clear. -/
def closureBalance (s : GlobalState) (goal : List Effect) : ℤ :=
  (trimClosures (goal.foldl closureEffect s.closures) s.heap.oldHeapSize
    (goal.foldl heapEffect s.heap).heapSize).newFrozenClosures - s.closures.newFrozenClosures

/-- The clauses of a predicate in memory along a goal, and those before its last update that was
told to the interpreter. -/
def traceEffect (db : FMap Qname Clauses) (qn : Qname) (now : Clauses × Option Clauses) :
    Effect → Clauses × Option Clauses
  | .getPredicate q => if q = qn then (loaded db qn now.1, now.2) else now
  | .updatePredicate q f =>
    if q = qn then (f (loaded db qn now.1), some (loaded db qn now.1)) else now
  | .retract q f => if q = qn then (f (loaded db qn now.1), now.2) else now
  | _ => now

/-- The clauses that come back when the updates of a goal are undone in the order they were made:
those before the last update, or those at the end when there was none. -/
def clausesBack (s : PredicateState) (goal : List Effect) (qn : Qname) : Clauses :=
  let last := goal.foldl (traceEffect s.predicatesDb qn) (s.inMemory qn, none)
  loaded s.predicatesDb qn (last.2.getD last.1)

/-- The condition under which a failed goal leaves no trace. -/
structure Traceless (s : GlobalState) (goal : List Effect) : Prop where
  heapSize : s.heap.discard.heapSize = s.heap.heapSize
  heap : ∀ addr, s.heap.discard.get addr = s.heap.get addr
  trail : s.trail = []
  stack : s.stack = []
  updatedPredicates : s.predicates.updatedPredicates = []
  newPredicates : s.predicates.newPredicates = 0
  closures : s.closures.modifiedClosures = ∅
  newAtomIndices : s.symbols.newAtomIndices = ∅
  newAtoms : ∀ a ∈ s.symbols.newAtoms,
    nameOf s.symbols a.1 = dbGetSymbolName s.symbols.symbolsDb a.1
  nextAtomId : s.symbols.nextAtomId = s.symbols.startNextAtomId
  nextPredicateId : s.nextPredicateId = s.startNextPredicateId
  knownAtoms : ∀ name, Effect.resolveAtomIndex name ∈ goal →
    dbGetSymbolIndex s.symbols.symbolsDb name ≠ .ok 0
  balanced : closureBalance s goal = 0
  predicates : ∀ qn, clausesBack s.predicates goal qn = s.predicates.clauses qn

end Statement

section Components

def predicateEffect (s : PredicateState) : Effect → PredicateState
  | .getPredicate qn => s.getPredicate qn
  | .updatePredicate qn f => s.update qn f
  | .retract qn f => s.retract qn f
  | _ => s

def symbolEffect (s : SymbolState) : Effect → Except Failure SymbolState
  | .atomName index => atomName s index
  | .resolveAtomIndex name => resolveAtomIndex s name
  | _ => .ok s

theorem perform_ok {s s' : GlobalState} {effect : Effect} (done : perform s effect = .ok s') :
    s'.heap = heapEffect s.heap effect ∧ s'.closures = closureEffect s.closures effect ∧
      s'.predicates = predicateEffect s.predicates effect ∧
      symbolEffect s.symbols effect = .ok s'.symbols ∧
      s'.startNextPredicateId = s.startNextPredicateId := by
  cases effect with
  | atomName index =>
    obtain ⟨symbols, loaded, rfl⟩ := map_ok done
    exact ⟨rfl, rfl, rfl, loaded, rfl⟩
  | resolveAtomIndex name =>
    obtain ⟨symbols, resolved, rfl⟩ := map_ok done
    exact ⟨rfl, rfl, rfl, resolved, rfl⟩
  | _ =>
    obtain rfl := Except.ok.inj done
    exact ⟨rfl, rfl, rfl, rfl, rfl⟩

theorem performGoal_ok {goal : List Effect} {s s' : GlobalState}
    (done : performGoal s goal = .ok s') :
    s'.heap = goal.foldl heapEffect s.heap ∧ s'.closures = goal.foldl closureEffect s.closures ∧
      s'.predicates = goal.foldl predicateEffect s.predicates ∧
      goal.foldlM symbolEffect s.symbols = .ok s'.symbols ∧
      s'.startNextPredicateId = s.startNextPredicateId := by
  induction goal generalizing s with
  | nil =>
    obtain rfl := Except.ok.inj done
    exact ⟨rfl, rfl, rfl, rfl, rfl⟩
  | cons effect goal ih =>
    obtain ⟨s₁, first, rest⟩ := bind_ok done
    obtain ⟨heap, closures, predicates, symbols, start⟩ := perform_ok first
    obtain ⟨heap', closures', predicates', symbols', start'⟩ := ih rest
    refine ⟨by rw [heap', heap]; rfl, by rw [closures', closures]; rfl,
      by rw [predicates', predicates]; rfl, ?_, start'.trans start⟩
    rw [List.foldlM_cons, symbols]
    exact symbols'

end Components

section Heap

theorem discard_heapEffects (goal : List Effect) (s : HeapState) :
    (goal.foldl heapEffect s).discard = s.discard := by
  induction goal generalizing s with
  | nil => rfl
  | cons effect goal ih =>
    rw [List.foldl_cons, ih]
    cases effect with
    | allocate cells =>
      simp only [heapEffect, HeapState.allocate]
      split <;> rfl
    | _ => rfl

theorem oldHeapSize_heapEffects (goal : List Effect) (s : HeapState) :
    (goal.foldl heapEffect s).oldHeapSize = s.oldHeapSize := by
  induction goal generalizing s with
  | nil => rfl
  | cons effect goal ih =>
    rw [List.foldl_cons, ih]
    cases effect with
    | allocate cells =>
      simp only [heapEffect, HeapState.allocate]
      split <;> rfl
    | _ => rfl

end Heap

section Closures

theorem closureDb_clearFrozenClosure (s : ClosureState) (addr : ℕ) :
    (clearFrozenClosure s addr).closureDb = s.closureDb := by
  simp only [clearFrozenClosure]
  split
  · rfl
  · split <;> rfl

theorem closureDb_closureEffects (goal : List Effect) (s : ClosureState) :
    (goal.foldl closureEffect s).closureDb = s.closureDb := by
  induction goal generalizing s with
  | nil => rfl
  | cons effect goal ih =>
    rw [List.foldl_cons, ih]
    cases effect with
    | clearFrozenClosure addr => exact closureDb_clearFrozenClosure s addr
    | _ => rfl

theorem closureDb_trimClosures (s : ClosureState) (newSize currentSize : ℕ) :
    (trimClosures s newSize currentSize).closureDb = s.closureDb := by
  unfold trimClosures
  induction getFrozenClosures s newSize currentSize generalizing s with
  | nil => rfl
  | cons addr addrs ih => rw [List.foldl_cons, ih, closureDb_clearFrozenClosure]

end Closures

section Predicates

/-- The copy of a predicate that is restored last. -/
def lastSaved (saved : List (Qname × Clauses)) (qn : Qname) : Option Clauses :=
  saved.foldl (fun last p => if p.1 = qn then some p.2 else last) none

private theorem lookup_restored (saved : List (Qname × Clauses)) (m : FMap Qname Clauses)
    (qn : Qname) : (saved.foldl (fun m p => m.insert p.1 p.2) m).lookup qn =
      saved.foldl (fun last p => if p.1 = qn then some p.2 else last) (m.lookup qn) := by
  induction saved generalizing m with
  | nil => rfl
  | cons p saved ih =>
    rw [List.foldl_cons, ih, List.foldl_cons, lookup_insert_ite]
    congr 1
    grind

private theorem foldl_lastSaved (saved : List (Qname × Clauses)) (qn : Qname)
    (first : Option Clauses) :
    saved.foldl (fun last p => if p.1 = qn then some p.2 else last) first =
      (lastSaved saved qn).or first := by
  induction saved using List.reverseRecOn with
  | nil => rfl
  | append_singleton saved p ih =>
    rw [lastSaved, List.foldl_append, List.foldl_append]
    simp only [List.foldl_cons, List.foldl_nil]
    split
    case isTrue => rfl
    case isFalse => exact ih

private theorem lookup_cleared (updated : List Qname) (m : FMap Qname Clauses) (qn : Qname) :
    (updated.foldl (fun m q => m.erase q) m).lookup qn =
      if qn ∈ updated then none else m.lookup qn := by
  induction updated generalizing m with
  | nil => simp
  | cons q updated ih =>
    rw [List.foldl_cons, ih, lookup_erase_ite]
    grind

theorem inMemory_discard (s : PredicateState) (qn : Qname) :
    s.discard.inMemory qn = ((lastSaved s.oldPredicates qn).or
      (if qn ∈ s.updatedPredicates then none else s.programDb.lookup qn)).getD [] := by
  rw [PredicateState.inMemory, PredicateState.discard, lookup_restored, foldl_lastSaved,
    lookup_cleared]

/-- What the lists of updates say about a predicate along a goal. -/
structure Follows (s : PredicateState) (db : FMap Qname Clauses) (qn : Qname)
    (now : Clauses × Option Clauses) : Prop where
  db : s.predicatesDb = db
  memory : s.inMemory qn = now.1
  saved : lastSaved s.oldPredicates qn = now.2
  updated : qn ∈ s.updatedPredicates ↔ now.2.isSome = true

namespace Follows

variable {s : PredicateState} {db : FMap Qname Clauses} {qn : Qname}
  {now : Clauses × Option Clauses}

private theorem inMemory_insert (m : PredicateState) (q : Qname) (cs : Clauses) :
    PredicateState.inMemory { m with programDb := m.programDb.insert q cs } qn =
      if qn = q then cs else m.inMemory qn := by
  rw [PredicateState.inMemory, lookup_insert_ite]
  split <;> rfl

theorem getPredicate (follows : Follows s db qn now) (q : Qname) :
    Follows (s.getPredicate q) db qn (if q = qn then (loaded db qn now.1, now.2) else now) := by
  have memory : PredicateState.inMemory
      { s with programDb := s.programDb.insert q (s.clauses q) } qn = _ :=
    inMemory_insert s q (s.clauses q)
  obtain ⟨rfl, rememory, saved, updated⟩ := follows
  by_cases here : q = qn
  · subst here
    rw [if_pos rfl]
    refine ⟨rfl, ?_, saved, updated⟩
    rw [PredicateState.getPredicate, memory, if_pos rfl, PredicateState.clauses, rememory]
  · rw [if_neg here]
    refine ⟨rfl, ?_, saved, updated⟩
    rw [PredicateState.getPredicate, memory, if_neg (Ne.symm here), rememory]

theorem retract (follows : Follows s db qn now) (q : Qname) (f : Clauses → Clauses) :
    Follows (s.retract q f) db qn (traceEffect db qn now (.retract q f)) := by
  obtain ⟨dbSame, memory, saved, updated⟩ := follows.getPredicate q
  have same : (traceEffect db qn now (.retract q f)).2 =
      (if q = qn then (loaded db qn now.1, now.2) else now).2 := by
    rw [traceEffect]
    split_ifs <;> rfl
  refine ⟨dbSame, ?_, ?_, ?_⟩
  · rw [PredicateState.retract, PredicateState.change, inMemory_insert]
    by_cases here : q = qn
    · subst here
      rw [if_pos rfl, memory, if_pos rfl, traceEffect, if_pos rfl]
    · rw [if_neg (Ne.symm here), memory, if_neg here, traceEffect, if_neg here]
  · rw [same]
    exact saved
  · rw [same]
    exact updated

theorem update (follows : Follows s db qn now) (q : Qname) (f : Clauses → Clauses) :
    Follows (s.update q f) db qn (traceEffect db qn now (.updatePredicate q f)) := by
  have loadedNow := follows.getPredicate q
  have present : (s.getPredicate q).programDb.lookup q = some (s.clauses q) :=
    Finmap.lookup_insert _
  have pre : (s.getPredicate q).updatedPredicatePre q =
      { s.getPredicate q with
        newPredicates := if s.clauses q = [] then s.newPredicates + 1 else s.newPredicates
        oldPredicates := s.oldPredicates ++ [(q, s.clauses q)] } := by
    rw [PredicateState.updatedPredicatePre, present]
    rfl
  have savedHere : lastSaved (s.oldPredicates ++ [(q, s.clauses q)]) qn =
      if q = qn then some (s.clauses q) else lastSaved s.oldPredicates qn := by
    rw [lastSaved, List.foldl_append]
    rfl
  refine ⟨?_, ?_, ?_, ?_⟩
  · rw [PredicateState.update, pre]
    exact follows.db
  · have memory := loadedNow.memory
    rw [PredicateState.update, pre, PredicateState.updatedPredicatePost, PredicateState.change]
    change PredicateState.inMemory { s.getPredicate q with
      programDb := (s.getPredicate q).programDb.insert q (f ((s.getPredicate q).inMemory q)) } qn = _
    rw [inMemory_insert, traceEffect]
    by_cases here : q = qn
    · subst here
      rw [if_pos rfl, memory, if_pos rfl, if_pos rfl]
    · rw [if_neg (Ne.symm here), memory, if_neg here, if_neg here]
  · rw [PredicateState.update, pre]
    change lastSaved (s.oldPredicates ++ [(q, s.clauses q)]) qn = _
    rw [savedHere, traceEffect]
    by_cases here : q = qn
    · subst here
      rw [if_pos rfl, if_pos rfl, PredicateState.clauses, follows.memory, follows.db]
    · rw [if_neg here, if_neg here, follows.saved]
  · rw [PredicateState.update, pre]
    change qn ∈ s.updatedPredicates ++ [q] ↔ _
    rw [List.mem_append, List.mem_singleton, traceEffect, follows.updated]
    by_cases here : q = qn
    · subst here
      simp
    · simp [here, Ne.symm here]

theorem goal (goal : List Effect) (follows : Follows s db qn now) :
    Follows (goal.foldl predicateEffect s) db qn (goal.foldl (traceEffect db qn) now) := by
  induction goal generalizing s now with
  | nil => exact follows
  | cons effect goal ih =>
    rw [List.foldl_cons, List.foldl_cons]
    apply ih
    cases effect with
    | getPredicate q => exact follows.getPredicate q
    | updatePredicate q f => exact follows.update q f
    | retract q f => exact follows.retract q f
    | _ => exact follows

theorem clauses_discard (follows : Follows s db qn now) :
    s.discard.clauses qn = loaded db qn (now.2.getD now.1) := by
  have dbSame : s.discard.predicatesDb = db := follows.db
  rw [PredicateState.clauses, dbSame, inMemory_discard, follows.saved]
  rcases saved : now.2 with _ | cs
  · have kept : qn ∉ s.updatedPredicates := by
      rw [follows.updated, saved]
      exact Bool.false_ne_true
    rw [if_neg kept, ← follows.memory]
    rfl
  · rfl

end Follows

theorem clauses_discard_goal {s : PredicateState} (goal : List Effect)
    (updated : s.updatedPredicates = []) (saved : s.oldPredicates = []) (qn : Qname) :
    (goal.foldl predicateEffect s).discard.clauses qn = clausesBack s goal qn := by
  have start : Follows s s.predicatesDb qn (s.inMemory qn, none) :=
    ⟨rfl, rfl, by rw [saved]; rfl, by simp [updated]⟩
  exact (start.goal goal).clauses_discard

theorem predicatesDb_predicateEffects (goal : List Effect) (s : PredicateState) :
    (goal.foldl predicateEffect s).predicatesDb = s.predicatesDb := by
  induction goal generalizing s with
  | nil => rfl
  | cons effect goal ih =>
    rw [List.foldl_cons, ih]
    cases effect with
    | updatePredicate q f =>
      simp only [predicateEffect, PredicateState.update, PredicateState.updatedPredicatePost,
        PredicateState.change, PredicateState.updatedPredicatePre]
      split <;> rfl
    | _ => rfl

end Predicates

section Symbols

private theorem newAtom_ok {s s' : SymbolState} {name : Bytes} {index : ℕ}
    (done : newAtom s name = .ok (index, s')) :
    (dbGetSymbolIndex s.symbolsDb name = .ok index ∧ index ≠ 0 ∧ s' = s) ∨
      (dbGetSymbolIndex s.symbolsDb name = .ok 0 ∧ (index, s') = handOut s name) := by
  obtain ⟨found, look, rest⟩ := bind_ok done
  by_cases known : found = 0
  · subst known
    exact .inr ⟨look, (Except.ok.inj rest).symm⟩
  · rw [if_pos known] at rest
    obtain ⟨rfl, rfl⟩ := Prod.mk.inj (Except.ok.inj rest)
    exact .inl ⟨look, known, rfl⟩

private theorem loadAtomIndex_ok {s s' : SymbolState} {name : Bytes}
    (done : loadAtomIndex s name = .ok s') :
    (name ∈ s.newAtomIndices ∧ s' = s) ∨
      (∃ index, index ≠ 0 ∧ dbGetSymbolIndex s.symbolsDb name = .ok index ∧
        s' = setAtomIndex s name index) ∨
      (dbGetSymbolIndex s.symbolsDb name = .ok 0 ∧ s' = (handOut s name).2) := by
  unfold loadAtomIndex at done
  split at done
  case isTrue listed => exact .inl ⟨listed, (Except.ok.inj done).symm⟩
  case isFalse =>
    right
    obtain ⟨found, look, rest⟩ := bind_ok done
    by_cases known : found = 0
    · subst known
      obtain ⟨⟨index, s₁⟩, handed, same⟩ := bind_ok rest
      obtain rfl : s₁ = s' := Except.ok.inj same
      rcases newAtom_ok handed with ⟨look', nonzero, -⟩ | ⟨-, out⟩
      · exact absurd (Except.ok.inj (look'.symm.trans look)) nonzero
      · exact .inr ⟨look, congrArg Prod.snd out⟩
    · rw [if_pos known] at rest
      exact .inl ⟨found, known, look, (Except.ok.inj rest).symm⟩

/-- What no effect changes in the symbols, and that new atoms are only added. -/
structure Grows (s s' : SymbolState) : Prop where
  db : s'.symbolsDb = s.symbolsDb
  start : s'.startNextAtomId = s.startNextAtomId
  newAtoms : s.newAtoms <+: s'.newAtoms

namespace Grows

theorem refl (s : SymbolState) : Grows s s := ⟨rfl, rfl, List.prefix_refl _⟩

theorem trans {s₁ s₂ s₃ : SymbolState} (first : Grows s₁ s₂) (second : Grows s₂ s₃) :
    Grows s₁ s₃ :=
  ⟨second.db.trans first.db, second.start.trans first.start,
    first.newAtoms.trans second.newAtoms⟩

theorem setAtomIndex (s : SymbolState) (name : Bytes) (index : ℕ) :
    Grows s (setAtomIndex s name index) := ⟨rfl, rfl, List.prefix_refl _⟩

theorem handOut (s : SymbolState) (name : Bytes) : Grows s (handOut s name).2 :=
  ⟨rfl, rfl, List.prefix_append _ _⟩

theorem newAtom {s s' : SymbolState} {name : Bytes} {index : ℕ}
    (done : newAtom s name = .ok (index, s')) : Grows s s' := by
  rcases newAtom_ok done with ⟨-, -, rfl⟩ | ⟨-, out⟩
  · exact refl _
  · obtain rfl := congrArg Prod.snd out
    exact handOut s name

theorem loadAtomIndex {s s' : SymbolState} {name : Bytes}
    (done : loadAtomIndex s name = .ok s') : Grows s s' := by
  rcases loadAtomIndex_ok done with ⟨-, rfl⟩ | ⟨index, -, -, rfl⟩ | ⟨-, rfl⟩
  · exact refl _
  · exact setAtomIndex s name index
  · exact handOut s name

theorem loadAtomName {s s' : SymbolState} {index : ℕ} (done : loadAtomName s index = .ok s') :
    Grows s s' := by
  obtain ⟨name, -, rest⟩ := bind_ok done
  split_ifs at rest
  · obtain rfl := Except.ok.inj rest
    exact setAtomIndex s name index
  · obtain rfl := Except.ok.inj rest
    exact refl _

theorem symbolEffect {s s' : SymbolState} {effect : Effect}
    (done : symbolEffect s effect = .ok s') : Grows s s' := by
  cases effect with
  | atomName index =>
    change (if _ then _ else _) = _ at done
    split_ifs at done
    · obtain rfl := Except.ok.inj done
      exact refl _
    · exact loadAtomName done
  | resolveAtomIndex name =>
    obtain ⟨s₁, loaded, rest⟩ := bind_ok done
    split_ifs at rest
    · obtain rfl := Except.ok.inj rest
      exact loadAtomIndex loaded
    · obtain ⟨⟨index, s₂⟩, made, same⟩ := bind_ok rest
      obtain rfl := Except.ok.inj same
      exact ((loadAtomIndex loaded).trans (newAtom made)).trans (setAtomIndex s₂ name index)
  | _ =>
    obtain rfl := Except.ok.inj done
    exact refl _

theorem goal {goal : List Effect} {s s' : SymbolState}
    (done : goal.foldlM Atomicity.symbolEffect s = .ok s') : Grows s s' := by
  induction goal generalizing s with
  | nil =>
    obtain rfl := Except.ok.inj done
    exact refl _
  | cons effect goal ih =>
    obtain ⟨s₁, first, rest⟩ := bind_ok ((List.foldlM_cons ..).symm.trans done)
    exact (symbolEffect first).trans (ih rest)

end Grows

/-- As long as every resolved name has an id in the database, only memory is filled. -/
structure OnlyLoaded (s s' : SymbolState) : Prop where
  newAtoms : s'.newAtoms = s.newAtoms
  newAtomIndices : s'.newAtomIndices = ∅
  names : ∀ index, nameOf s' index = nameOf s index ∨ ∃ name, index ≠ 0 ∧
    dbGetSymbolIndex s.symbolsDb name = .ok index ∧ nameOf s' index = .ok name

private theorem nameOf_setAtomIndex (s : SymbolState) (name : Bytes) (index i : ℕ) :
    nameOf (setAtomIndex s name index) i = if i = index then .ok name else nameOf s i := by
  rw [nameOf, setAtomIndex, lookup_insert_ite]
  split_ifs <;> rfl

private theorem onlyLoaded_effect {s s' : SymbolState} {effect : Effect}
    (none : s.newAtomIndices = ∅)
    (known : ∀ name, effect = .resolveAtomIndex name → dbGetSymbolIndex s.symbolsDb name ≠ .ok 0)
    (done : symbolEffect s effect = .ok s') : OnlyLoaded s s' := by
  cases effect with
  | atomName index =>
    change (if _ then _ else _) = _ at done
    split_ifs at done with inMemory
    · obtain rfl := Except.ok.inj done
      exact ⟨rfl, none, fun _ => .inl rfl⟩
    · obtain ⟨name, read, rest⟩ := bind_ok done
      split_ifs at rest
      · obtain rfl := Except.ok.inj rest
        refine ⟨rfl, none, fun i => .inl ?_⟩
        rw [nameOf_setAtomIndex]
        split_ifs with here
        · rw [here, nameOf, Finmap.lookup_eq_none.2 inMemory, read]
        · rfl
      · obtain rfl := Except.ok.inj rest
        exact ⟨rfl, none, fun _ => .inl rfl⟩
  | resolveAtomIndex name =>
    obtain ⟨s₁, loaded, rest⟩ := bind_ok done
    rcases loadAtomIndex_ok loaded with ⟨listed, -⟩ | ⟨index, nonzero, look, rfl⟩ | ⟨look, -⟩
    · rw [none] at listed
      exact absurd listed Finmap.notMem_empty
    · have present : name ∈ (setAtomIndex s name index).atomNameToIndex :=
        Finmap.mem_insert.2 (.inl rfl)
      rw [if_pos present] at rest
      obtain rfl := Except.ok.inj rest
      refine ⟨rfl, none, fun i => ?_⟩
      rw [nameOf_setAtomIndex]
      split_ifs with here
      · exact .inr ⟨name, here ▸ nonzero, here ▸ look, rfl⟩
      · exact .inl rfl
    · exact absurd look (known name rfl)
  | _ =>
    obtain rfl := Except.ok.inj done
    exact ⟨rfl, none, fun _ => .inl rfl⟩

private theorem onlyLoaded_goal {goal : List Effect} {s s' : SymbolState}
    (agree : ∀ name index, dbGetSymbolIndex s.symbolsDb name = .ok index → index ≠ 0 →
      nameOf s index = .ok name)
    (none : s.newAtomIndices = ∅)
    (known : ∀ name, Effect.resolveAtomIndex name ∈ goal →
      dbGetSymbolIndex s.symbolsDb name ≠ .ok 0)
    (done : goal.foldlM symbolEffect s = .ok s') :
    s'.newAtoms = s.newAtoms ∧ ∀ index, nameOf s' index = nameOf s index := by
  induction goal generalizing s with
  | nil =>
    obtain rfl := Except.ok.inj done
    exact ⟨rfl, fun _ => rfl⟩
  | cons effect goal ih =>
    obtain ⟨s₁, first, rest⟩ := bind_ok ((List.foldlM_cons ..).symm.trans done)
    have here := onlyLoaded_effect none
      (fun name same => known name (same ▸ List.mem_cons_self)) first
    have db := (Grows.symbolEffect first).db
    have names : ∀ index, nameOf s₁ index = nameOf s index := by
      intro index
      rcases here.names index with same | ⟨name, nonzero, look, loaded⟩
      · exact same
      · rw [loaded, agree name index look nonzero]
    obtain ⟨newAtoms, after⟩ := ih (by simpa only [db, names] using agree) here.newAtomIndices
      (fun name among => by rw [db]; exact known name (List.mem_cons_of_mem _ among)) rest
    exact ⟨newAtoms.trans here.newAtoms, fun index => (after index).trans (names index)⟩

private theorem newAtoms_grow {goal : List Effect} {s s' : SymbolState}
    (none : s.newAtomIndices = ∅) {name : Bytes} (among : Effect.resolveAtomIndex name ∈ goal)
    (unknown : dbGetSymbolIndex s.symbolsDb name = .ok 0)
    (done : goal.foldlM symbolEffect s = .ok s') : s.newAtoms.length < s'.newAtoms.length := by
  induction goal generalizing s with
  | nil => exact nomatch among
  | cons effect goal ih =>
    obtain ⟨s₁, first, rest⟩ := bind_ok ((List.foldlM_cons ..).symm.trans done)
    have later := (Grows.goal rest).newAtoms.length_le
    by_cases handsOut : ∃ name', effect = .resolveAtomIndex name' ∧
        dbGetSymbolIndex s.symbolsDb name' = .ok 0
    · obtain ⟨name', rfl, unknown'⟩ := handsOut
      obtain ⟨s₂, loaded, resolved⟩ := bind_ok first
      rcases loadAtomIndex_ok loaded with ⟨listed, -⟩ | ⟨index, nonzero, look, -⟩ | ⟨-, rfl⟩
      · rw [none] at listed
        exact absurd listed Finmap.notMem_empty
      · exact absurd (Except.ok.inj (look.symm.trans unknown')) nonzero
      · have present : name' ∈ (handOut s name').2.atomNameToIndex :=
          Finmap.mem_insert.2 (.inl rfl)
        rw [if_pos present] at resolved
        obtain rfl := Except.ok.inj resolved
        have one : (handOut s name').2.newAtoms.length = s.newAtoms.length + 1 :=
          List.length_append
        omega
    · have grows := Grows.symbolEffect first
      have none₁ := (onlyLoaded_effect none
        (fun name' same unknown' => handsOut ⟨name', same, unknown'⟩) first).newAtomIndices
      have shorter := grows.newAtoms.length_le
      rcases List.mem_cons.1 among with rfl | later'
      · exact absurd ⟨name, rfl, unknown⟩ handsOut
      · have := ih none₁ later' (by rw [grows.db]; exact unknown) rest
        omega

private theorem clearAtoms (atoms : List (ℕ × Bytes)) (s : SymbolState) :
    let s' := atoms.foldl (fun s sym => clearAtomIndex s sym.2 sym.1) s
    s'.symbolsDb = s.symbolsDb ∧ s'.newAtoms = s.newAtoms ∧
      s'.startNextAtomId = s.startNextAtomId ∧
      ∀ index, s'.atomIndexToName.lookup index =
        if index ∈ atoms.map Prod.fst then none else s.atomIndexToName.lookup index := by
  induction atoms generalizing s with
  | nil => exact ⟨rfl, rfl, rfl, fun _ => by simp⟩
  | cons atom atoms ih =>
    obtain ⟨db, newAtoms, start, names⟩ := ih (clearAtomIndex s atom.2 atom.1)
    refine ⟨db, newAtoms, start, fun index => ?_⟩
    rw [List.foldl_cons, names, clearAtomIndex, lookup_erase_ite, List.map_cons]
    grind

theorem nameOf_discardSymbols (s : SymbolState) (index : ℕ) :
    nameOf (discardSymbols s) index = if index ∈ s.newAtoms.map Prod.fst then
      dbGetSymbolName s.symbolsDb index else nameOf s index := by
  obtain ⟨db, -, -, names⟩ := clearAtoms s.newAtoms s
  simp only [nameOf, discardSymbols, names, db]
  split_ifs <;> rfl

theorem indexOf_of_empty {s : SymbolState} (none : s.newAtomIndices = ∅) (name : Bytes) :
    indexOf s name = dbGetSymbolIndex s.symbolsDb name := by
  rw [indexOf, if_neg]
  rw [none]
  exact Finmap.notMem_empty

theorem discardSymbols_fields (s : SymbolState) :
    (discardSymbols s).symbolsDb = s.symbolsDb ∧ (discardSymbols s).newAtoms = s.newAtoms ∧
      (discardSymbols s).nextAtomId = s.startNextAtomId ∧
      (discardSymbols s).newAtomIndices = ∅ := by
  obtain ⟨db, newAtoms, start, -⟩ := clearAtoms s.newAtoms s
  exact ⟨db, newAtoms, start, rfl⟩

end Symbols

section Transactions

variable {s s₁ : GlobalState} {goal : List Effect}

private theorem restored_of_traceless (coherent : Coherent s)
    (done : performGoal s goal = .ok s₁) (traceless : Traceless s goal) :
    Restored s (discardChanges s₁) := by
  obtain ⟨heap, closures, predicates, symbols, start⟩ := performGoal_ok done
  have grows := Grows.goal symbols
  obtain ⟨newAtoms, names⟩ := onlyLoaded_goal coherent.symbols traceless.newAtomIndices
    traceless.knownAtoms symbols
  obtain ⟨db, kept, next, none⟩ := discardSymbols_fields s₁.symbols
  have sameDb : (discardChanges s₁).symbols.symbolsDb = s.symbols.symbolsDb := db.trans grows.db
  have heapBack : (discardChanges s₁).heap = s.heap.discard := by
    change s₁.heap.discard = _
    rw [heap, discard_heapEffects]
  have closureDb : (discardChanges s₁).closures.closureDb = s.closures.closureDb := by
    change (trimClosures s₁.closures _ _).closureDb = _
    rw [closureDb_trimClosures, closures, closureDb_closureEffects]
  have count : (discardChanges s₁).closures.newFrozenClosures = s.closures.newFrozenClosures := by
    have oldSize : s₁.heap.oldHeapSize = s.heap.oldHeapSize := by
      rw [heap]
      exact oldHeapSize_heapEffects goal s.heap
    have balanced := traceless.balanced
    rw [closureBalance, ← closures, ← heap, ← oldSize] at balanced
    exact Int.sub_eq_zero.1 balanced
  exact {
    heapSize := by rw [heapBack, traceless.heapSize]
    heap := fun addr => by rw [heapBack, traceless.heap]
    trail := traceless.trail.symm
    stack := traceless.stack.symm
    atomNames := by
      intro index
      change nameOf (discardSymbols s₁.symbols) index = _
      rw [nameOf_discardSymbols, newAtoms, grows.db, names]
      split_ifs with among
      · obtain ⟨a, listed, rfl⟩ := List.mem_map.1 among
        exact (traceless.newAtoms a listed).symm
      · rfl
    atomIndices := by
      intro name
      change indexOf (discardSymbols s₁.symbols) name = _
      rw [indexOf_of_empty none, indexOf_of_empty traceless.newAtomIndices, db, grows.db]
    newAtomIndices := traceless.newAtomIndices.symm
    nextAtomId := next.trans (grows.start.trans traceless.nextAtomId.symm)
    nextPredicateId := start.trans traceless.nextPredicateId.symm
    predicates := by
      intro qn
      change s₁.predicates.discard.clauses qn = _
      rw [predicates, clauses_discard_goal goal traceless.updatedPredicates
        (coherent.saved traceless.updatedPredicates), traceless.predicates]
    updatedPredicates := traceless.updatedPredicates.symm
    closures := traceless.closures.symm
    closureDb := closureDb
    numFrozenClosures := by rw [numFrozenClosures, numFrozenClosures, closureDb, count]
    numSymbols := by
      rw [numSymbols, numSymbols, sameDb]
      exact congrArg (_ + ·) (congrArg List.length (kept.trans newAtoms))
    numPredicates := by
      have same : s₁.predicates.predicatesDb = s.predicates.predicatesDb := by
        rw [predicates, predicatesDb_predicateEffects]
      rw [numPredicates, numPredicates, traceless.newPredicates]
      exact congrArg (fun m : FMap Qname Clauses => ((m.keys.card : ℤ) + 0)) same }

private theorem traceless_of_restored (coherent : Coherent s)
    (done : performGoal s goal = .ok s₁) (restored : Restored s (discardChanges s₁)) :
    Traceless s goal := by
  obtain ⟨heap, closures, predicates, symbols, start⟩ := performGoal_ok done
  have grows := Grows.goal symbols
  obtain ⟨db, kept, next, none⟩ := discardSymbols_fields s₁.symbols
  have heapBack : (discardChanges s₁).heap = s.heap.discard := by
    change s₁.heap.discard = _
    rw [heap, discard_heapEffects]
  have noIndices : s.symbols.newAtomIndices = ∅ := restored.newAtomIndices.symm.trans none
  have updated : s.predicates.updatedPredicates = [] := restored.updatedPredicates.symm
  have oldSize : s₁.heap.oldHeapSize = s.heap.oldHeapSize := by
    rw [heap]
    exact oldHeapSize_heapEffects goal s.heap
  exact {
    heapSize := by rw [← heapBack, restored.heapSize]
    heap := fun addr => by rw [← heapBack, restored.heap]
    trail := restored.trail.symm
    stack := restored.stack.symm
    updatedPredicates := updated
    newPredicates := by
      have same : (discardChanges s₁).predicates.predicatesDb = s.predicates.predicatesDb := by
        change s₁.predicates.predicatesDb = _
        rw [predicates, predicatesDb_predicateEffects]
      have counts := restored.numPredicates
      rw [numPredicates, numPredicates, same] at counts
      have zero : (discardChanges s₁).predicates.newPredicates = 0 := rfl
      omega
    closures := restored.closures.symm
    newAtomIndices := noIndices
    newAtoms := by
      intro a among
      have name := restored.atomNames a.1
      change nameOf (discardSymbols s₁.symbols) a.1 = _ at name
      rw [nameOf_discardSymbols, if_pos, grows.db] at name
      · exact name.symm
      · exact List.mem_map.2 ⟨a, grows.newAtoms.subset among, rfl⟩
    nextAtomId := restored.nextAtomId.symm.trans (next.trans grows.start)
    nextPredicateId := restored.nextPredicateId.symm.trans start
    knownAtoms := by
      intro name among unknown
      have more := newAtoms_grow noIndices among unknown symbols
      have counts := restored.numSymbols
      have sameDb : (discardChanges s₁).symbols.symbolsDb = s.symbols.symbolsDb :=
        db.trans grows.db
      rw [numSymbols, numSymbols, sameDb] at counts
      have same : (discardChanges s₁).symbols.newAtoms.length = s₁.symbols.newAtoms.length :=
        congrArg List.length kept
      omega
    balanced := by
      have counts := restored.numFrozenClosures
      rw [numFrozenClosures, numFrozenClosures, restored.closureDb] at counts
      have count : (discardChanges s₁).closures.newFrozenClosures =
          s.closures.newFrozenClosures := by omega
      rw [closureBalance, ← closures, ← heap, ← oldSize]
      exact Int.sub_eq_zero.2 count
    predicates := by
      intro qn
      rw [← clauses_discard_goal goal updated (coherent.saved updated), ← predicates]
      exact restored.predicates qn }

/-- A committed state with one cell on the heap. -/
def committed : GlobalState where
  heap :=
    { heapDb := Finmap.singleton 0 [Cell.EMPTY_LIST], modifiedBlocks := ∅
      heapSize := 1, oldHeapSize := 1 }
  trail := []
  stack := []
  symbols := opened ∅
  predicates :=
    { predicatesDb := ∅, programDb := ∅, updatedPredicates := [], oldPredicates := []
      newPredicates := 0 }
  nextPredicateId := 0
  startNextPredicateId := 0
  closures := Closures.opened ∅

private theorem committed_coherent : Coherent committed where
  symbols _ _ look nonzero := absurd (Except.ok.inj look).symm nonzero
  saved _ := rfl
  closures _ impossible := absurd impossible Finmap.notMem_empty

/-- A goal that binds a cell and freezes it before it fails; the unwinding clears the closure. -/
def frozenAndUnwound : List Effect :=
  [.allocate [Cell.make .REF 1], .setFrozenClosure 1 ⟨Cell.make .STR 3, oneClosure.property⟩,
    .trail [1], .heapSet 1 Cell.EMPTY_LIST, .clearFrozenClosure 1]

private theorem frozenAndUnwound_traceless : Traceless committed frozenAndUnwound where
  heapSize := rfl
  heap _ := rfl
  trail := rfl
  stack := rfl
  updatedPredicates := rfl
  newPredicates := rfl
  closures := rfl
  newAtomIndices := rfl
  newAtoms _ impossible := nomatch impossible
  nextAtomId := rfl
  nextPredicateId := rfl
  knownAtoms _ impossible := by simp [frozenAndUnwound] at impossible
  balanced := by decide +kernel
  predicates _ := rfl

end Transactions

end Epilog.Global.Atomicity
