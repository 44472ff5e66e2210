/- Module: Epilog/Global/Symbols
   source: src/src/common/fast_hash.cpp, src/src/global/global.hpp (symbols),
     src/src/global/global_interpreter.cpp (new_atom, load_atom_*, commit_symbols)
   digest: The persistent symbol table, its overlay of new atoms and the in-memory tables. -/

import Epilog.Common.Term
import Epilog.Lib.FiniteMap

set_option autoImplicit false

namespace Epilog.Global.Symbols

open Epilog.Common.Bits Epilog.Common.Term Epilog.Lib.FiniteMap

section FastHash

/-- `fast_hash`: the state of a 32-bit Murmur3 hash -/
structure FastHash where
  state : BitVec 32 := 38136192
  count : ℕ := 0

namespace FastHash

def update (h : FastHash) (value : BitVec 32) : FastHash :=
  let k1 := (value * 0xcc9e2d51).rotateLeft 15 * 0x1b873593
  let h1 := (h.state ^^^ k1).rotateLeft 13 * 5 + 0xe6546b64
  { state := h1, count := h.count + 4 }

/-- Bytes are gathered eight at a time, but only the lower four of a group reach the hash. -/
def updateBytes (h : FastHash) (bytes : Bytes) : FastHash :=
  (List.range ((bytes.length + 7) / 8)).foldl (fun h i =>
    let v := ((bytes.drop (8 * i)).take 8).foldl
      (fun (v : BitVec 64) b => (v <<< 8) ||| b.toBitVec.setWidth 64) 0
    h.update (v.setWidth 32)) h

def fmix32 (h : BitVec 32) : BitVec 32 :=
  let h := (h ^^^ (h >>> 16)) * 0x85ebca6b
  let h := (h ^^^ (h >>> 13)) * 0xc2b2ae35
  h ^^^ (h >>> 16)

def finalize (h : FastHash) : BitVec 32 := fmix32 (h.state ^^^ BitVec.ofNat 32 h.count)

end FastHash

end FastHash

section Database

inductive Failure
  | assertion
  | badCast
  | bufferOverflow
  deriving DecidableEq, Repr

/-- The symbols database below the symbols root. -/
abbrev SymbolsDb := FMap ℕ Bytes

def MAX_NAME_LENGTH : ℕ := 256

/-- The key of a name at the `i`-th probe. -/
def probeKey (name : Bytes) (i : ℕ) : ℕ :=
  let h := (({} : FastHash).updateBytes name).update (BitVec.ofNat 32 i)
  ((h.finalize &&& ~~~(1#32 <<< 29)) ||| (1#32 <<< 29)).toNat

def symbolEntryToCustomData (symbolIndex : ℕ) (symbolName : Bytes) : Except Failure Bytes :=
  if 2 ^ 32 ≤ symbolIndex ∨ 2 ^ 32 ≤ symbolName.length then .error .badCast
  else if MAX_NAME_LENGTH < symbolName.length then .error .bufferOverflow
  else .ok (writeUint32 (BitVec.ofNat 32 symbolIndex) ++
    (writeUint32 (BitVec.ofNat 32 symbolName.length) ++ symbolName))

def customDataToSymbolEntry (buffer : Bytes) : Except Failure (ℕ × Bytes) :=
  let symbolIndex := (readUint32 buffer).toNat
  let strLen := (readUint32 (buffer.drop 4)).toNat
  if strLen < MAX_NAME_LENGTH then .ok (symbolIndex, (buffer.drop 8).take strLen)
  else .error .assertion

/-- Number of symbols = number of entries / 2. -/
def dbNumSymbols (db : SymbolsDb) : ℕ := db.keys.card / 2

def dbGetSymbolName (db : SymbolsDb) (index : ℕ) : Except Failure Bytes :=
  match db.lookup index with
  | none => .ok []
  | some leaf => do
    let (symbolIndex, symbolName) ← customDataToSymbolEntry leaf
    if symbolIndex = index then return symbolName else throw .assertion

/-- The loop of `db_get_symbol_index` over the probes. -/
def getSymbolIndexFrom (db : SymbolsDb) (name : Bytes) : List ℕ → Except Failure ℕ
  | [] => .ok 0
  | i :: probes =>
    match db.lookup (probeKey name i) with
    | none => .ok 0
    | some leaf => do
      let (symbolIndex, symbolName) ← customDataToSymbolEntry leaf
      if symbolName = name then return symbolIndex else getSymbolIndexFrom db name probes

/-- Maximum 10 hash collisions before we give up. -/
def dbGetSymbolIndex (db : SymbolsDb) (name : Bytes) : Except Failure ℕ :=
  getSymbolIndexFrom db name (List.range 10)

/-- The loop of `db_set_symbol_index` that looks for the key of a name. -/
def findKeyFrom (db : SymbolsDb) (name : Bytes) : List ℕ → Except Failure (Option ℕ)
  | [] => .ok none
  | i :: probes =>
    match db.lookup (probeKey name i) with
    | none => .ok (some (probeKey name i))
    | some leaf =>
      let strLen := (readUint32 (leaf.drop 4)).toNat
      if leaf.length ≠ 8 + strLen then .error .assertion
      else if (leaf.drop 8).take strLen = name then .ok (some (probeKey name i))
      else findKeyFrom db name probes

def dbSetSymbolIndex (db : SymbolsDb) (index : ℕ) (name : Bytes) :
    Except Failure (Bool × SymbolsDb) := do
  match ← findKeyFrom db name (List.range 10) with
  | none => return (false, db)
  | some key =>
    let customData ← symbolEntryToCustomData index name
    return (true, (db.insert key customData).insert index customData)

end Database

section Overlay

/-- The symbol tables of the global interpreter. -/
structure SymbolState where
  symbolsDb : SymbolsDb
  nextAtomId : ℕ
  startNextAtomId : ℕ
  newAtoms : List (ℕ × Bytes)
  newAtomIndices : FMap Bytes ℕ
  atomNameToIndex : FMap Bytes ℕ
  atomIndexToName : FMap ℕ Bytes

/-- `init_from_symbols_db` in a new interpreter -/
def opened (db : SymbolsDb) : SymbolState where
  symbolsDb := db
  nextAtomId := dbNumSymbols db
  startNextAtomId := dbNumSymbols db
  newAtoms := []
  newAtomIndices := ∅
  atomNameToIndex := ∅
  atomIndexToName := ∅

def setAtomIndex (s : SymbolState) (name : Bytes) (index : ℕ) : SymbolState :=
  { s with
    atomNameToIndex := s.atomNameToIndex.insert name index
    atomIndexToName := s.atomIndexToName.insert index name }

def clearAtomIndex (s : SymbolState) (name : Bytes) (index : ℕ) : SymbolState :=
  { s with
    atomNameToIndex := s.atomNameToIndex.erase name
    atomIndexToName := s.atomIndexToName.erase index }

/-- The part of `new_atom` for a name that is not in the database. -/
def handOut (s : SymbolState) (atomName : Bytes) : ℕ × SymbolState :=
  let atomId := s.nextAtomId
  let s := setAtomIndex { s with nextAtomId := s.nextAtomId + 1 } atomName atomId
  (atomId, { s with
    newAtoms := s.newAtoms ++ [(atomId, atomName)]
    newAtomIndices := s.newAtomIndices.insert atomName atomId })

def newAtom (s : SymbolState) (atomName : Bytes) : Except Failure (ℕ × SymbolState) := do
  let index ← dbGetSymbolIndex s.symbolsDb atomName
  if index ≠ 0 then return (index, s) else return handOut s atomName

def loadAtomName (s : SymbolState) (index : ℕ) : Except Failure SymbolState := do
  let name ← dbGetSymbolName s.symbolsDb index
  if name ≠ [] then return setAtomIndex s name index else return s

def loadAtomIndex (s : SymbolState) (name : Bytes) : Except Failure SymbolState :=
  if name ∈ s.newAtomIndices then .ok s
  else do
    let index ← dbGetSymbolIndex s.symbolsDb name
    if index ≠ 0 then return setAtomIndex s name index
    else
      let (_, s) ← newAtom s name
      return s

/-- The loop of `commit_symbols`. -/
def setSymbols (db : SymbolsDb) : List (ℕ × Bytes) → Except Failure SymbolsDb
  | [] => .ok db
  | (symbolIndex, symbolName) :: atoms => do
    let (_, db) ← dbSetSymbolIndex db symbolIndex symbolName
    setSymbols db atoms

def commitSymbols (s : SymbolState) : Except Failure SymbolState :=
  if s.newAtoms = [] then .ok s
  else do
    let db ← setSymbols s.symbolsDb s.newAtoms
    return { s with symbolsDb := db, newAtoms := [], newAtomIndices := ∅ }

/-- What `discard_changes` does to the symbols. -/
def discardSymbols (s : SymbolState) : SymbolState :=
  let s := s.newAtoms.foldl (fun s sym => clearAtomIndex s sym.2 sym.1) s
  { s with newAtomIndices := ∅, nextAtomId := s.startNextAtomId }

def numSymbols (s : SymbolState) : ℕ := dbNumSymbols s.symbolsDb + s.newAtoms.length

end Overlay

section Runs

inductive Op
  | newAtom (name : Bytes)
  | loadAtomIndex (name : Bytes)
  | loadAtomName (index : ℕ)
  | commit
  | discard
  | reopen
  deriving DecidableEq

/-- One call. A thrown exception and a failed assertion end the run. -/
def step (s : SymbolState) : Op → Except Failure SymbolState
  | .newAtom name => (newAtom s name).map Prod.snd
  | .loadAtomIndex name => loadAtomIndex s name
  | .loadAtomName index => loadAtomName s index
  | .commit => commitSymbols s
  | .discard => .ok (discardSymbols s)
  | .reopen => .ok (opened s.symbolsDb)

/-- The pairs a call passes to `db_set_symbol_index`. -/
def recorded (s : SymbolState) : Op → List (ℕ × Bytes)
  | .commit => s.newAtoms
  | _ => []

/-- A run, with all pairs passed to `db_set_symbol_index` so far. -/
def run (s : SymbolState) (log : List (ℕ × Bytes)) : List Op →
    Except Failure (SymbolState × List (ℕ × Bytes))
  | [] => .ok (s, log)
  | op :: ops => do
    let s' ← step s op
    run s' (log ++ recorded s op) ops

/-- Somewhere in the database, the overlay or the memory the name has the id. -/
def Associated (s : SymbolState) (id : ℕ) (name : Bytes) : Prop :=
  (∃ key leaf, s.symbolsDb.lookup key = some leaf ∧
    customDataToSymbolEntry leaf = .ok (id, name)) ∨
  (id, name) ∈ s.newAtoms ∨ s.newAtomIndices.lookup name = some id ∨
  s.atomNameToIndex.lookup name = some id ∨ s.atomIndexToName.lookup id = some name

/-- No id has two names, and no name has two ids. -/
def Bijective (s : SymbolState) : Prop :=
  ∀ id name id' name', Associated s id name → Associated s id' name' →
    (id = id' ↔ name = name')

/-- Both lookups answer what was stored. -/
def Stored (s : SymbolState) (id : ℕ) (name : Bytes) : Prop :=
  dbGetSymbolIndex s.symbolsDb name = .ok id ∧ dbGetSymbolName s.symbolsDb id = .ok name

section Conditions

/-- An id may be handed out for the name: the counter agrees with the number of symbols, the id
is below the range of hash keys, and the name is neither waiting for its commit nor stored under
id 0, which `db_get_symbol_index` cannot tell from "not found". -/
def MayHandOut (s : SymbolState) (name : Bytes) : Prop :=
  s.nextAtomId = numSymbols s ∧ s.nextAtomId < 2 ^ 29 ∧ name.length < MAX_NAME_LENGTH ∧
    name ∉ s.newAtomIndices ∧ ¬ (0 ∈ s.symbolsDb ∧ dbGetSymbolName s.symbolsDb 0 = .ok name)

/-- Every name of the list finds a free key among its ten probes when its turn comes. -/
def Placeable (db : SymbolsDb) : List (ℕ × Bytes) → Prop
  | [] => True
  | (id, name) :: atoms => (∃ i < 10, probeKey name i ∉ db) ∧
      match dbSetSymbolIndex db id name with
      | .error _ => True
      | .ok (_, db') => Placeable db' atoms

def Permitted (s : SymbolState) : Op → Prop
  | .newAtom name => dbGetSymbolIndex s.symbolsDb name = .ok 0 → MayHandOut s name
  | .loadAtomIndex name => name ∉ s.newAtomIndices →
      dbGetSymbolIndex s.symbolsDb name = .ok 0 → MayHandOut s name
  | .commit => Placeable s.symbolsDb s.newAtoms
  | _ => True

def PermittedRun (s : SymbolState) : List Op → Prop
  | [] => True
  | op :: ops => Permitted s op ∧
      match step s op with
      | .error _ => True
      | .ok s' => PermittedRun s' ops

instance (s : SymbolState) (name : Bytes) : Decidable (MayHandOut s name) :=
  inferInstanceAs (Decidable (_ ∧ _ ∧ _ ∧ _ ∧ ¬ (_ ∧ _)))

instance : (db : SymbolsDb) → (atoms : List (ℕ × Bytes)) → Decidable (Placeable db atoms)
  | _, [] => .isTrue trivial
  | db, (id, name) :: atoms =>
      let decideAfter : (after : Except Failure (Bool × SymbolsDb)) → Decidable (match after with
          | .error _ => True
          | .ok (_, db') => Placeable db' atoms) := fun
        | .error _ => .isTrue trivial
        | .ok (_, db') => instDecidablePlaceable db' atoms
      @instDecidableAnd _ _ inferInstance (decideAfter (dbSetSymbolIndex db id name))

instance (s : SymbolState) : (op : Op) → Decidable (Permitted s op)
  | .newAtom name => inferInstanceAs (Decidable (_ → MayHandOut s name))
  | .loadAtomIndex name => inferInstanceAs (Decidable (_ → _ → MayHandOut s name))
  | .commit => inferInstanceAs (Decidable (Placeable s.symbolsDb s.newAtoms))
  | .loadAtomName _ => .isTrue trivial
  | .discard => .isTrue trivial
  | .reopen => .isTrue trivial

instance : (s : SymbolState) → (ops : List Op) → Decidable (PermittedRun s ops)
  | _, [] => .isTrue trivial
  | s, op :: ops =>
      let decideAfter : (after : Except Failure SymbolState) → Decidable (match after with
          | .error _ => True
          | .ok s' => PermittedRun s' ops) := fun
        | .error _ => .isTrue trivial
        | .ok s' => instDecidablePermittedRun s' ops
      @instDecidableAnd _ _ inferInstance (decideAfter (step s op))

end Conditions

end Runs

end Epilog.Global.Symbols
