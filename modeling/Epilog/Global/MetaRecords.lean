/- Module: Epilog/Global/MetaRecords
   source: src/src/global/blockchain.cpp (init, advance, add_meta_entry, update_meta_entry,
     update_tip), src/src/global/global.cpp (db_put_meta, set_tip)
   digest: The tables of meta entries above their database, and reading them again. -/

import Epilog.Global.MetaValidation
import Epilog.Db.Heights

set_option autoImplicit false

namespace Epilog.Global.MetaRecords

open Epilog.Lib.FiniteMap Epilog.Lib.Query Epilog.Lib.Fuel Epilog.Db.Store Epilog.Db.Iterator
  Epilog.Db.Roots Epilog.Global.Chains Epilog.Global.MetaTerms Epilog.Global.MetaCodec

/-- `blockchain` with the database of the meta entries. -/
structure MetaStore where
  metaDb : Triedb := {}
  chains : FMap MetaId StoredEntry := ∅
  atHeight : FMap ℕ (Finset MetaId) := ∅
  tip : StoredEntry := emptyEntry

/-- A database call; each exception of the calls made here is a failed assertion. -/
def called {α : Type} (x : Access α) (db : Triedb) : Option (α × Triedb) :=
  match x db with
  | .ok a db => some (a, db)
  | .error _ _ => none

/-- A root id is a position in a file, which has 64 bits. -/
def toRootId (r : RootId) : Option UInt64 := if r < 2 ^ 64 then some (UInt64.ofNat r) else none

/-- What `update_meta_entry` stores: nothing is written behind the last root id. -/
def storedBytes (e : StoredEntry) : Bytes := e.write ++ List.replicate 32 0

def serializationSize : ℕ := 304

/-- `at_height_[h].insert(id)` -/
def fileAt (atHeight : FMap ℕ (Finset MetaId)) (h : ℕ) (id : MetaId) : FMap ℕ (Finset MetaId) :=
  atHeight.insert h (insert id ((atHeight.lookup h).getD ∅))

def isPartial (e : StoredEntry) : Bool :=
  e.rootIdHeap = 0 || e.rootIdClosure = 0 || e.rootIdSymbols = 0 || e.rootIdProgram = 0

/-- The roots of the state and block databases are replaced. -/
def withRoots (e roots : StoredEntry) : StoredEntry :=
  { e with
    rootIdHeap := roots.rootIdHeap
    rootIdClosure := roots.rootIdClosure
    rootIdSymbols := roots.rootIdSymbols
    rootIdProgram := roots.rootIdProgram
    rootIdBlocks := roots.rootIdBlocks }

section Changes

variable (P : TriedbParams)

/-- `new_root` with or without a parent -/
def createRoot : Option RootId → Access RootId
  | none => newRoot P
  | some parent => newRootFrom parent

def newMetaRoot (parent : Option RootId) (db : Triedb) : Option (UInt64 × Triedb) := do
  let (r, db) ← called (createRoot P parent) db
  let r ← toRootId r
  return (r, db)

namespace MetaStore

def updateMetaEntry (s : MetaStore) (e : StoredEntry) : Option MetaStore := do
  let ((), db) ← called (update P e.rootIdMeta.toNat e.height.toUInt64 (storedBytes e)) s.metaDb
  return { s with
    metaDb := db
    chains := s.chains.insert e.id e
    atHeight := fileAt s.atHeight e.height.toNat e.id }

/-- The root under which an entry is added; the assertion is that the previous entry is known. -/
def parentRoot (s : MetaStore) (e : StoredEntry) : Option (Option RootId) :=
  if e.previousId = 0 then some none
  else (s.chains.lookup e.previousId).map fun prev => some prev.rootIdMeta.toNat

/-- `add_meta_entry`, with the entry that it changes -/
def addMetaEntry (s : MetaStore) (e : StoredEntry) : Option (StoredEntry × MetaStore) := do
  let parent ← s.parentRoot e
  let (r, db) ← newMetaRoot P parent s.metaDb
  let e := { e with rootIdMeta := r }
  let s ← { s with metaDb := db }.updateMetaEntry P e
  return (e, s)

/-- `advance`, with the roots that the other databases hand out -/
def advance (s : MetaStore) (version time : UInt64) (roots : StoredEntry) : Option MetaStore := do
  let (r, db) ← newMetaRoot P
    (if s.tip.rootIdMeta = 0 then none else some s.tip.rootIdMeta.toNat) s.metaDb
  return { s with
    metaDb := db
    tip := MetaValidation.advance s.tip { roots with rootIdMeta := r } version time }

/-- `update_tip` after `update_meta_id` -/
def updateTip (s : MetaStore) (id : MetaId) : Option MetaStore :=
  let tip := { s.tip with id := id }
  match s.chains.lookup id with
  | some existing =>
      some { s with
        tip := tip
        chains :=
          if id = existing.id then s.chains.insert id (withRoots existing tip) else s.chains }
  | none => do
      let (tip, s) ← { s with tip := tip }.addMetaEntry P tip
      return { s with tip := tip }

variable (validatePow : MetaId → Flt1648 → PowProof → Bool)

/-- The entries that `db_put_meta` adds; all others are dropped or throw before a change. -/
def Added (s : MetaStore) (entry : MetaEntry) : Prop :=
  validatePow entry.id entry.powDifficulty entry.powProof = true ∧
    (entry.previousId = 0 ∨ (s.chains.lookup entry.previousId).isSome = true) ∧
      entry.height > 0 ∧ s.chains.lookup entry.id = none

instance (s : MetaStore) (entry : MetaEntry) : Decidable (s.Added validatePow entry) :=
  inferInstanceAs (Decidable (_ ∧ _ ∧ _ ∧ _))

/-- `db_put_meta` -/
def putMeta (s : MetaStore) (term : MetaTerm) : Option MetaStore :=
  match dbParseMeta term with
  | .ok (some entry) =>
      if s.Added validatePow entry then
        (s.addMetaEntry P { toMetaEntry := entry }).map fun (_, s) => s
      else some s
  | _ => some s

def setTip (s : MetaStore) (id : MetaId) : MetaStore :=
  match s.chains.lookup id with
  | some e => { s with tip := e }
  | none => s

end MetaStore

end Changes

section Reading

/-- The record under a root at its height -/
def readEntry (db : Triedb) (fuel : ℕ) (height : ℕ) (root : RootId) : Option (Option StoredEntry) :=
  do
    let stored ← find db fuel root (UInt64.ofNat height)
    match stored with
    | none => return none
    | some leaf =>
        if leaf.customData.length ≠ serializationSize then none
        else do
          let r ← toRootId root
          return some { emptyEntry.read leaf.customData with
            height := UInt32.ofNat height
            rootIdMeta := r }

/-- The tables that `init` fills, and the last entry whose databases are there -/
structure Tables where
  chains : FMap MetaId StoredEntry := ∅
  atHeight : FMap ℕ (Finset MetaId) := ∅
  best : StoredEntry := emptyEntry

/-- `chains_.insert`, which leaves an entry that is there -/
def insertNew (chains : FMap MetaId StoredEntry) (e : StoredEntry) : FMap MetaId StoredEntry :=
  if (chains.lookup e.id).isSome then chains else chains.insert e.id e

def Tables.enter (available : StoredEntry → Bool) (t : Tables) (e : StoredEntry) : Tables where
  chains := insertNew t.chains e
  atHeight := fileAt t.atHeight e.height.toNat e.id
  best := if !isPartial e && available e then e else t.best

def readRoot (db : Triedb) (available : StoredEntry → Bool) (fuel height : ℕ) (t : Tables)
    (root : RootId) : Option Tables := do
  let found ← readEntry db fuel height root
  match found with
  | none => return t
  | some e => return if e.id = 0 then t else t.enter available e

/-- The loop of `init` over the heights, until one has no roots -/
def readLevels (db : Triedb) (available : StoredEntry → Bool) (fuel : ℕ) :
    ℕ → ℕ → Tables → Option Tables
  | 0, _, _ => none
  | n + 1, height, t =>
      if db.rootsAtHeight height = ∅ then some t
      else do
        let t ← (ascending (db.rootsAtHeight height)).foldlM (readRoot db available fuel height) t
        readLevels db available fuel n (height + 1) t

/-- `init`; `tipFile` is the id that is read from the file of the tip. -/
def MetaStore.init (available : StoredEntry → Bool) (tipFile : Option MetaId) (s : MetaStore)
    (fuel : ℕ) : Option MetaStore := do
  let db := readRoots s.metaDb
  let t ← readLevels db available fuel fuel 0 {}
  return {
    metaDb := db
    chains := t.chains
    atHeight := t.atHeight
    tip := (tipFile.bind t.chains.lookup).getD t.best }

end Reading

end Epilog.Global.MetaRecords
