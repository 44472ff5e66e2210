/- Module: Epilog/Node/BlockImport
   source: src/src/node/local_interpreter.cpp (new_blk_2), src/src/global/global.cpp (set_tip,
     setup_commit, execute_commit, increment_height), src/src/global/blockchain.cpp
   digest: The import of a block: what it reports, and when it leaves the node as it was. -/

import Epilog.Global.MetaForest
import Epilog.Node.AcceptedTxs

set_option autoImplicit false

namespace Epilog.Node.BlockImport

open Epilog.Lib.FiniteMap Epilog.Lib.StateFrames Epilog.Db.Store Epilog.Db.Frames
  Epilog.Db.Representation Epilog.Db.Versioned Epilog.Db.Roots Epilog.Global.Chains
  Epilog.Global.MetaTerms Epilog.Global.MetaCodec Epilog.Global.MetaValidation
  Epilog.Global.MetaRecords Epilog.Global.MetaForest Epilog.Node.AcceptedTxs
open Epilog.Db.Branch (TriedbLeaf)

section Model

/-- The engine with what the global interpreter does besides goals -/
structure GlobalEngine (G : Type) extends Engine G Bytes where
  /-- A new interpreter that `init` has set up at a tip -/
  openAt : Databases → StoredEntry → G
  discard : G → G
  executeCut : G → G
  /-- `commit_heap`, `commit_closures`, `commit_symbols` and `commit_program` under the roots of a
  tip; the option is a failed assertion or an exception. -/
  commit : G → StoredEntry → Databases → Option (G × Databases)

/-- What `new_blk/2` is given for a meta term; for any other term, there may be a list in its first
argument that is scanned all the same. -/
inductive MetaArg
  | metaTerm (items : List Item)
  | other (items : Option (List Item))

def MetaArg.parse : MetaArg → Except Failure MetaEntry
  | .metaTerm items => (parseItems items).map (·.getD newEntry)
  | .other _ => .ok newEntry

/-- `db_validate_meta`; the option is undefined behaviour. -/
def MetaArg.validate (hash : Bytes → MetaId) (entry : MetaEntry) : MetaArg → Option Bool
  | .metaTerm items => dbValidateMeta hash items entry
  | .other items => items.bind fun items => dbValidateMeta hash items entry

/-- A block: the bytes of a bignum, or a term that is written -/
inductive Block (T : Type)
  | big (bytes : Bytes)
  | term (t : T)

def Block.buffer {T : Type} (write : T → Bytes) : Block T → Bytes
  | .big bytes => bytes
  | .term t => write t

/-- `global`: the entries and their tip, the state databases, the interpreter (there is none for a
partial tip), and what the next commit is made with -/
structure Global (G : Type) where
  store : MetaStore
  dbs : Databases
  interp : Option G
  commitVersion : UInt64
  commitHeight : UInt32
  commitTime : UInt64
  commitGoals : Bytes

inductive Reply
  | yes | no | throws
  deriving DecidableEq

variable {G : Type} (engine : GlobalEngine G)

namespace Global

def setTip (n : Global G) (id : MetaId) : Global G :=
  match n.store.chains.lookup id with
  | none => n
  | some e =>
    { n with
      store := n.store.setTip id
      interp := if isPartial e then none else some (engine.openAt n.dbs e) }

def setupCommit (n : Global G) (e : MetaEntry) : Global G :=
  { n with commitVersion := e.version, commitHeight := e.height, commitTime := e.timestamp }

variable (P : TriedbParams) (hash : Bytes → MetaId) (fuel : ℕ) (emptyGoals : Bytes)

/-- The new roots of `advance` in the databases of the blocks and of the state -/
def newStateRoots (tip : StoredEntry) (D : Databases) : Option (StoredEntry × Databases) := do
  let parent (r : UInt64) : Option RootId := if tip.rootIdMeta = 0 then none else some r.toNat
  let (blocks, blocksDb) ← newMetaRoot P (parent tip.rootIdBlocks) D.blocks
  let (heap, heapDb) ← newMetaRoot P (parent tip.rootIdHeap) (D.state .heap)
  let (closure, closureDb) ← newMetaRoot P (parent tip.rootIdClosure) (D.state .closure)
  let (symbols, symbolsDb) ← newMetaRoot P (parent tip.rootIdSymbols) (D.state .symbols)
  let (program, programDb) ← newMetaRoot P (parent tip.rootIdProgram) (D.state .program)
  let roots := { tip with
    rootIdBlocks := blocks
    rootIdHeap := heap
    rootIdClosure := closure
    rootIdSymbols := symbols
    rootIdProgram := program }
  let state : StateDb → Triedb
    | .heap => heapDb
    | .closure => closureDb
    | .symbols => symbolsDb
    | .program => programDb
  return (roots, ⟨blocksDb, state⟩)

/-- `db_set_block` -/
def setBlock (tip : StoredEntry) (goals : Bytes) (D : Databases) : Option Databases := do
  let ((), blocks) ← called
    (update P tip.rootIdBlocks.toNat tip.height.toUInt64 goals) D.blocks
  return { D with blocks }

/-- `increment_height`; the option is a failed assertion, or an exception on the way. -/
def incrementHeight (n : Global G) (g : G) : Option (Global G) := do
  let (roots, dbs) ← newStateRoots P n.store.tip n.dbs
  let store ← n.store.advance P n.commitVersion n.commitTime roots
  let (g, dbs) ← engine.commit g store.tip dbs
  let dbs ← setBlock P store.tip n.commitGoals dbs
  let tip ← updateMetaId hash dbs fuel store.tip
  let store ← store.updateTip P tip.id
  return { n with store, dbs, interp := some g, commitGoals := emptyGoals }

/-- `execute_commit`; without an interpreter it throws. -/
def executeCommit (n : Global G) (buf : Bytes) : Option (Reply × Global G) :=
  match n.interp with
  | none => some (.throws, n)
  | some g =>
    match executeGoal engine.toEngine g buf with
    | (none, g) => some (.throws, { n with interp := some g })
    | (some false, g) => some (.no, { n with interp := some (engine.discard g) })
    | (some true, g) =>
      ({ n with commitGoals := buf }.incrementHeight engine P hash fuel emptyGoals
        (engine.executeCut g)).map fun n => (.yes, n)

variable {T : Type} (write : T → Bytes)
  (validatePow : MetaId → Flt1648 → PowProof → Bool)

/-- The state that a new block is executed in -/
def prepared (n : Global G) (entry : MetaEntry) : Global G :=
  (if n.store.tip.id ≠ entry.previousId then n.setTip engine entry.previousId else n).setupCommit
    entry

/-- `new_blk_2` from where the block is executed; it fails in either case. -/
def importNew (n : Global G) (entry : MetaEntry) (buf : Bytes) : Option (Reply × Global G) :=
  match (n.prepared engine entry).executeCommit engine P hash fuel emptyGoals buf with
  | none => none
  | some (.throws, n) => some (.throws, n)
  | some (.no, n) => some (.no, n)
  | some (.yes, n) => some (.no, n)

/-- `new_blk_2` -/
def newBlk (n : Global G) (m : MetaArg) (block : Block T) : Option (Reply × Global G) :=
  match m.parse with
  | .error _ => some (.throws, n)
  | .ok entry =>
    match m.validate hash entry with
    | none => none
    | some false => some (.throws, n)
    | some true =>
      if !validatePow entry.id entry.powDifficulty entry.powProof then some (.throws, n)
      else if (n.store.chains.lookup entry.id).isSome then some (.yes, n)
      else if (n.store.chains.lookup entry.previousId).isNone then some (.throws, n)
      else n.importNew engine P hash fuel emptyGoals entry (block.buffer write)

end Global

end Model

section Statement

variable {G T : Type} (engine : GlobalEngine G) (P : TriedbParams) (hash : Bytes → MetaId)
  (fuel : ℕ) (emptyGoals : Bytes) (write : T → Bytes)
  (validatePow : MetaId → Flt1648 → PowProof → Bool)

/-- The state of a tip has the root hashes and the counts that a meta term says. -/
def Reproduces (items : List Item) (tip : StoredEntry) (D : Databases) : Prop :=
  ∃ block hashes counts, D.blockHash fuel tip = some block ∧
    stateDbs.mapM (D.stateHash tip) = some hashes ∧ hashesIn items = .ok (block :: hashes) ∧
      stateDbs.mapM (D.stateNum tip) = some counts ∧ countsIn items = .ok counts

/-- A valid meta term whose block leads from its previous entry to where it says -/
structure Importable (n : Global G) (m : MetaArg) (block : Block T) (entry : MetaEntry) : Prop where
  valid : ∃ items, m = .metaTerm items ∧ m.parse = .ok entry ∧
    m.validate hash entry = some true ∧
      ∃ n', ((n.setTip engine entry.previousId).setupCommit entry).executeCommit engine P hash fuel
        emptyGoals (block.buffer write) = some (.yes, n') ∧
          Reproduces fuel items n'.store.tip n'.dbs
  pow : validatePow entry.id entry.powDifficulty entry.powProof = true
  previous : (n.store.chains.lookup entry.previousId).isSome = true

/-- The tip, the entries and their database, and the global state are as they were. -/
structure Same (n n' : Global G) : Prop where
  store : n'.store = n.store
  dbs : n'.dbs = n.dbs
  interp : n'.interp = n.interp

/-- The import ends: with success and the entry for what can be imported, with failure and without a
trace for the rest. -/
def Correct (n : Global G) (m : MetaArg) (block : Block T) : Prop :=
  ∃ reply n', n.newBlk engine P hash fuel emptyGoals write validatePow m block = some (reply, n') ∧
    (∀ entry, Importable engine P hash fuel emptyGoals write validatePow n m block entry →
      reply = .yes ∧ (n'.store.chains.lookup entry.id).isSome = true) ∧
    ((¬ ∃ entry, Importable engine P hash fuel emptyGoals write validatePow n m block entry) →
      reply ≠ .yes ∧ Same n n')

/-- A block that is executed on the state of the tip does not succeed, and is undone. -/
def Undone (g : Option G) (buf : Bytes) : Prop :=
  match g with
  | none => True
  | some g =>
    match executeGoal engine.toEngine g buf with
    | (none, g') => g' = g
    | (some false, g') => engine.discard g' = g
    | (some true, _) => False

/-- The calls that go right: the term is rejected before anything is done, or its entry is here and
could be imported again, or it cannot be imported and its block fails, without a trace, on the tip
that is there. -/
def Meets (n : Global G) (m : MetaArg) (block : Block T) : Prop :=
  match m.parse with
  | .error _ => True
  | .ok entry =>
    match m.validate hash entry with
    | none => False
    | some false => True
    | some true =>
      validatePow entry.id entry.powDifficulty entry.powProof = false ∨
        if (n.store.chains.lookup entry.id).isSome then
          Importable engine P hash fuel emptyGoals write validatePow n m block entry
        else
          n.store.chains.lookup entry.previousId = none ∨
            ¬ Importable engine P hash fuel emptyGoals write validatePow n m block entry ∧
              n.store.tip.id = entry.previousId ∧ Undone engine n.interp (block.buffer write)

/-- The entries are found under their ids. -/
def OwnIds (chains : FMap MetaId StoredEntry) : Prop :=
  ∀ id e, chains.lookup id = some e → e.id = id

end Statement

section OwnIds

variable {P : TriedbParams} {validatePow : MetaId → Flt1648 → PowProof → Bool}
  {chains : FMap MetaId StoredEntry}

theorem ownIds_empty : OwnIds ∅ := fun _ _ found => nomatch found

theorem OwnIds.insert (own : OwnIds chains) (e : StoredEntry) : OwnIds (chains.insert e.id e) := by
  intro id e' found
  rw [lookup_insert_ite] at found
  split_ifs at found with same
  · rw [← Option.some.inj found, same]
  · exact own id e' found

theorem OwnIds.updateMetaEntry {s s' : MetaStore} (own : OwnIds s.chains) {e : StoredEntry}
    (ran : s.updateMetaEntry P e = some s') : OwnIds s'.chains := by
  obtain ⟨_, -, ran⟩ := Option.bind_eq_some_iff.1 ran
  rw [← Option.some.inj ran]
  exact own.insert e

theorem OwnIds.addMetaEntry {s s' : MetaStore} (own : OwnIds s.chains) {e e' : StoredEntry}
    (ran : s.addMetaEntry P e = some (e', s')) : OwnIds s'.chains := by
  obtain ⟨parent, -, ran⟩ := Option.bind_eq_some_iff.1 ran
  obtain ⟨⟨r, db⟩, -, ran⟩ := Option.bind_eq_some_iff.1 ran
  obtain ⟨s₁, updated, made⟩ := Option.bind_eq_some_iff.1 ran
  obtain rfl : s₁ = s' := congrArg Prod.snd (Option.some.inj made)
  exact OwnIds.updateMetaEntry (s := { s with metaDb := db }) own updated

theorem OwnIds.updateTip {s s' : MetaStore} (own : OwnIds s.chains) {id : MetaId}
    (ran : s.updateTip P id = some s') : OwnIds s'.chains := by
  rw [MetaStore.updateTip] at ran
  cases found : s.chains.lookup id with
  | some e =>
    rw [found] at ran
    rw [← Option.some.inj ran]
    dsimp only
    split_ifs with same
    · have inserted := own.insert (withRoots e { s.tip with id := id })
      rwa [show (withRoots e { s.tip with id := id }).id = id from same.symm] at inserted
    · exact own
  | none =>
    rw [found] at ran
    obtain ⟨⟨tip, s₁⟩, added, made⟩ := Option.bind_eq_some_iff.1 ran
    rw [← Option.some.inj made]
    have start : OwnIds ({ s with tip := { s.tip with id := id } } : MetaStore).chains := own
    have after := start.addMetaEntry added
    exact after

end OwnIds

section Growth

variable {P : TriedbParams}

/-- The file of the roots is as long as it was. -/
def SameLength (s s' : Triedb) : Prop := s'.rootsFile.length = s.rootsFile.length

instance : IsPreorder Triedb SameLength where
  refl _ := rfl
  trans _ _ _ first second := second.trans first

theorem sameLength_appendLeafNode (l : TriedbLeaf) : Frames SameLength (appendLeafNode P l) :=
  fun s => congrArg List.length (sameRoots_appendLeafNode P l s).rootsFile

theorem sameLength_setRoot (r : RootId) (offset : ℕ) : Frames SameLength (setRoot r offset) :=
  (frames_getRoot r).bind fun _ => .withState fun _ => List.length_set

theorem sameLength_modifyNumEntries (r : RootId) (f : UInt64 → UInt64) :
    Frames SameLength (modifyNumEntries r f) :=
  (frames_getRoot r).bind fun _ _ => rfl

theorem sameLength_update (r : RootId) (key : UInt64) (data : Bytes) :
    Frames SameLength (update P r key data) :=
  frames_insertOrUpdate sameLength_appendLeafNode (fun _ _ => rfl) (sameLength_modifyNumEntries r)
    (sameLength_setRoot r) key data false

theorem length_createRoot {parent : Option RootId} {s s' : Triedb} {r : RootId}
    (ran : createRoot P parent s = .ok r s') :
    s'.rootsFile.length = s.rootsFile.length + 1 := by
  have written (root : TriedbRoot) (s : Triedb) (r : RootId) :
      ((writeRootAtEnd root s).setRootEntry r root).rootsFile.length = s.rootsFile.length + 1 :=
    List.length_append
  cases parent with
  | none =>
    obtain ⟨s₁, root, same, -, created⟩ := newRoot_named P s
    cases created.symm.trans ran
    rw [written, same.rootsFile]
  | some parent =>
    cases entry : s.roots.lookup parent with
    | none => exact nomatch (bind_error (getRoot_error entry)).symm.trans ran
    | some root =>
      cases (bind_ok (getRoot_ok entry)).symm.trans ran
      exact written _ s _

theorem length_newMetaRoot {parent : Option RootId} {db db' : Triedb} {r : UInt64}
    (ran : newMetaRoot P parent db = some (r, db')) :
    db'.rootsFile.length = db.rootsFile.length + 1 := by
  obtain ⟨⟨r₁, db₁⟩, created, ran⟩ := Option.bind_eq_some_iff.1 ran
  obtain ⟨r₂, -, ran⟩ := Option.bind_eq_some_iff.1 ran
  obtain rfl : db₁ = db' := congrArg Prod.snd (Option.some.inj ran)
  exact length_createRoot (called_some created)

theorem length_updateMetaEntry {s s' : MetaStore} {e : StoredEntry}
    (ran : s.updateMetaEntry P e = some s') :
    s'.metaDb.rootsFile.length = s.metaDb.rootsFile.length := by
  obtain ⟨⟨u, db⟩, updated, ran⟩ := Option.bind_eq_some_iff.1 ran
  rw [← Option.some.inj ran]
  exact (sameLength_update _ _ _).ok (called_some updated)

theorem length_advance {s s' : MetaStore} {version time : UInt64} {roots : StoredEntry}
    (ran : s.advance P version time roots = some s') :
    s'.metaDb.rootsFile.length = s.metaDb.rootsFile.length + 1 := by
  obtain ⟨⟨r, db⟩, created, ran⟩ := Option.bind_eq_some_iff.1 ran
  rw [← Option.some.inj ran]
  exact length_newMetaRoot created

theorem length_updateTip {s s' : MetaStore} {id : MetaId} (ran : s.updateTip P id = some s') :
    s.metaDb.rootsFile.length ≤ s'.metaDb.rootsFile.length := by
  rw [MetaStore.updateTip] at ran
  cases found : s.chains.lookup id with
  | some e =>
    rw [found] at ran
    rw [← Option.some.inj ran]
  | none =>
    rw [found] at ran
    obtain ⟨⟨tip, s₁⟩, added, ran⟩ := Option.bind_eq_some_iff.1 ran
    obtain ⟨parent, -, added⟩ := Option.bind_eq_some_iff.1 added
    obtain ⟨⟨r, db⟩, created, added⟩ := Option.bind_eq_some_iff.1 added
    obtain ⟨s₂, updated, made⟩ := Option.bind_eq_some_iff.1 added
    obtain rfl : s₂ = s₁ := congrArg Prod.snd (Option.some.inj made)
    rw [← Option.some.inj ran]
    dsimp only
    rw [length_updateMetaEntry updated, length_newMetaRoot created]
    exact Nat.le_succ _

variable {G : Type} {engine : GlobalEngine G} {hash : Bytes → MetaId} {fuel : ℕ}
  {emptyGoals : Bytes}

theorem Global.length_incrementHeight {n n' : Global G} {g : G}
    (ran : n.incrementHeight engine P hash fuel emptyGoals g = some n') :
    n.store.metaDb.rootsFile.length < n'.store.metaDb.rootsFile.length := by
  obtain ⟨⟨roots, dbs⟩, -, ran⟩ := Option.bind_eq_some_iff.1 ran
  obtain ⟨s₁, advanced, ran⟩ := Option.bind_eq_some_iff.1 ran
  obtain ⟨⟨g₁, dbs₁⟩, -, ran⟩ := Option.bind_eq_some_iff.1 ran
  obtain ⟨dbs₂, -, ran⟩ := Option.bind_eq_some_iff.1 ran
  obtain ⟨tip, -, ran⟩ := Option.bind_eq_some_iff.1 ran
  obtain ⟨s₂, updated, ran⟩ := Option.bind_eq_some_iff.1 ran
  rw [← Option.some.inj ran]
  have longer := length_advance advanced
  have kept := length_updateTip updated
  dsimp only
  omega

end Growth

section Import

variable {G T : Type} {engine : GlobalEngine G} {P : TriedbParams} {hash : Bytes → MetaId}
  {fuel : ℕ} {emptyGoals : Bytes} {write : T → Bytes}
  {validatePow : MetaId → Flt1648 → PowProof → Bool} {n : Global G} {m : MetaArg}
  {block : Block T} {entry : MetaEntry}

theorem Importable.parse
    (importable : Importable engine P hash fuel emptyGoals write validatePow n m block entry) :
    m.parse = .ok entry :=
  let ⟨_, _, parsed, _⟩ := importable.valid
  parsed

theorem Importable.validate
    (importable : Importable engine P hash fuel emptyGoals write validatePow n m block entry) :
    m.validate hash entry = some true :=
  let ⟨_, _, _, validated, _⟩ := importable.valid
  validated

theorem correct_rejected (reply : Reply)
    (ran : n.newBlk engine P hash fuel emptyGoals write validatePow m block = some (reply, n))
    (fails : reply ≠ .yes)
    (never : ∀ entry,
      ¬ Importable engine P hash fuel emptyGoals write validatePow n m block entry) :
    Correct engine P hash fuel emptyGoals write validatePow n m block :=
  ⟨reply, n, ran, fun entry importable => absurd importable (never entry),
    fun _ => ⟨fails, rfl, rfl, rfl⟩⟩

theorem Global.setTip_id (own : OwnIds n.store.chains) {id : MetaId}
    (known : (n.store.chains.lookup id).isSome = true) :
    (n.setTip engine id).store.tip.id = id := by
  obtain ⟨e, found⟩ := Option.isSome_iff_exists.1 known
  simp only [setTip, MetaStore.setTip, found]
  exact own id e found

theorem Global.executeCommit_store {n' : Global G} {reply : Reply} {buf : Bytes}
    (ran : n.executeCommit engine P hash fuel emptyGoals buf = some (reply, n'))
    (fails : reply ≠ .yes) : n'.store = n.store := by
  unfold executeCommit at ran
  split at ran
  · exact congrArg (·.store) (congrArg Prod.snd (Option.some.inj ran)).symm
  · split at ran
    · exact congrArg (·.store) (congrArg Prod.snd (Option.some.inj ran)).symm
    · exact congrArg (·.store) (congrArg Prod.snd (Option.some.inj ran)).symm
    · obtain ⟨n₁, -, made⟩ := Option.map_eq_some_iff.1 ran
      exact absurd (congrArg Prod.fst made).symm fails

theorem Global.length_executeCommit {n' : Global G} {buf : Bytes}
    (ran : n.executeCommit engine P hash fuel emptyGoals buf = some (.yes, n')) :
    n.store.metaDb.rootsFile.length < n'.store.metaDb.rootsFile.length := by
  unfold executeCommit at ran
  split at ran
  · exact nomatch congrArg Prod.fst (Option.some.inj ran)
  · split at ran
    · exact nomatch congrArg Prod.fst (Option.some.inj ran)
    · exact nomatch congrArg Prod.fst (Option.some.inj ran)
    · obtain ⟨n₁, advanced, made⟩ := Option.map_eq_some_iff.1 ran
      obtain rfl : n₁ = n' := congrArg Prod.snd made
      have longer := length_incrementHeight advanced
      exact longer

variable (P hash fuel emptyGoals) in
theorem Global.executeCommit_same_iff {buf : Bytes} :
    (∃ reply n', n.executeCommit engine P hash fuel emptyGoals buf = some (reply, n') ∧
      Same n n') ↔ Undone engine n.interp buf := by
  have set_same {g g' : G} (interp : n.interp = some g) :
      Same n { n with interp := some g' } ↔ g' = g := by
    constructor
    · exact fun same => Option.some.inj (same.interp.trans interp)
    · rintro rfl
      exact ⟨rfl, rfl, interp.symm⟩
  unfold Undone
  cases interp : n.interp with
  | none =>
    simp only [executeCommit, interp, iff_true]
    exact ⟨.throws, n, rfl, rfl, rfl, rfl⟩
  | some g =>
    rcases executed : executeGoal engine.toEngine g buf with ⟨_ | _ | _, g'⟩
    · simp only [executeCommit, interp, executed, Option.some.injEq, Prod.mk.injEq]
      rw [← set_same interp]
      exact ⟨fun ⟨_, _, ⟨_, made⟩, same⟩ => made ▸ same, fun same => ⟨_, _, ⟨rfl, rfl⟩, same⟩⟩
    · simp only [executeCommit, interp, executed, Option.some.injEq, Prod.mk.injEq]
      rw [← set_same interp]
      exact ⟨fun ⟨_, _, ⟨_, made⟩, same⟩ => made ▸ same, fun same => ⟨_, _, ⟨rfl, rfl⟩, same⟩⟩
    · simp only [executeCommit, interp, executed, iff_false]
      rintro ⟨reply, n', ran, same⟩
      obtain ⟨n₁, advanced, made⟩ := Option.map_eq_some_iff.1 ran
      obtain rfl : n₁ = n' := congrArg Prod.snd made
      have longer := length_incrementHeight advanced
      rw [same.store] at longer
      exact lt_irrefl _ longer

theorem Global.importNew_some {buf : Bytes} {reply : Reply} {n' : Global G} :
    n.importNew engine P hash fuel emptyGoals entry buf = some (reply, n') ↔
      ∃ executed, (n.prepared engine entry).executeCommit engine P hash fuel emptyGoals buf =
        some (executed, n') ∧ reply = if executed = .throws then .throws else .no := by
  unfold importNew
  cases (n.prepared engine entry).executeCommit engine P hash fuel emptyGoals buf with
  | none => exact ⟨nofun, nofun⟩
  | some result =>
    obtain ⟨executed, n₁⟩ := result
    cases executed <;> simp [eq_comm, and_comm]

theorem Global.importNew_same_iff (own : OwnIds n.store.chains) {buf : Bytes}
    (known : (n.store.chains.lookup entry.previousId).isSome = true) :
    (∃ reply n', n.importNew engine P hash fuel emptyGoals entry buf = some (reply, n') ∧
      Same n n') ↔
      n.store.tip.id = entry.previousId ∧ Undone engine n.interp buf := by
  simp only [importNew_some]
  by_cases tip : n.store.tip.id = entry.previousId
  · have prepared : n.prepared engine entry = n.setupCommit entry := by
      rw [Global.prepared, if_neg (not_not.2 tip)]
    have interp : (n.setupCommit entry).interp = n.interp := rfl
    rw [prepared, and_iff_right tip, ← interp, ← executeCommit_same_iff P hash fuel emptyGoals]
    constructor
    · rintro ⟨_, n', ⟨executed, ran, rfl⟩, same⟩
      exact ⟨executed, n', ran, same.store, same.dbs, same.interp⟩
    · rintro ⟨executed, n', ran, same⟩
      exact ⟨_, n', ⟨executed, ran, rfl⟩, same.store, same.dbs, same.interp⟩
  · refine iff_of_false ?_ fun both => tip both.1
    rintro ⟨_, n', ⟨executed, ran, rfl⟩, same⟩
    have prepared : n.prepared engine entry =
        (n.setTip engine entry.previousId).setupCommit entry := by
      rw [Global.prepared, if_pos tip]
    rw [prepared] at ran
    by_cases succeeds : executed = .yes
    · -- the commit has taken another root of the meta entries
      rw [succeeds] at ran
      have longer := length_executeCommit ran
      rw [same.store] at longer
      have database : (n.setTip engine entry.previousId).store.metaDb = n.store.metaDb := by
        obtain ⟨e, found⟩ := Option.isSome_iff_exists.1 known
        simp only [setTip, MetaStore.setTip, found]
      have longer : n.store.metaDb.rootsFile.length < n.store.metaDb.rootsFile.length :=
        database ▸ longer
      exact lt_irrefl _ longer
    · have moved := executeCommit_store ran succeeds
      rw [same.store] at moved
      refine tip ?_
      rw [moved]
      exact setTip_id own known

theorem Global.importNew_ne_yes {buf : Bytes} {reply : Reply} {n' : Global G}
    (ran : n.importNew engine P hash fuel emptyGoals entry buf = some (reply, n')) :
    reply ≠ .yes := by
  obtain ⟨executed, -, rfl⟩ := importNew_some.1 ran
  split_ifs
  · exact nofun
  · exact nofun

theorem Global.newBlk_valid (parsed : m.parse = .ok entry)
    (validated : m.validate hash entry = some true) :
    n.newBlk engine P hash fuel emptyGoals write validatePow m block =
      if !validatePow entry.id entry.powDifficulty entry.powProof then some (.throws, n)
      else if (n.store.chains.lookup entry.id).isSome then some (.yes, n)
      else if (n.store.chains.lookup entry.previousId).isNone then some (.throws, n)
      else n.importNew engine P hash fuel emptyGoals entry (block.buffer write) := by
  rw [newBlk, parsed]
  dsimp only
  rw [validated]

theorem correct_valid_iff (own : OwnIds n.store.chains) (parsed : m.parse = .ok entry)
    (validated : m.validate hash entry = some true) :
    Correct engine P hash fuel emptyGoals write validatePow n m block ↔
      (validatePow entry.id entry.powDifficulty entry.powProof = false ∨
        if (n.store.chains.lookup entry.id).isSome then
          Importable engine P hash fuel emptyGoals write validatePow n m block entry
        else
          n.store.chains.lookup entry.previousId = none ∨
            ¬ Importable engine P hash fuel emptyGoals write validatePow n m block entry ∧
              n.store.tip.id = entry.previousId ∧
                Undone engine n.interp (block.buffer write)) := by
  have only {entry' : MetaEntry} (importable : Importable engine P hash fuel emptyGoals write
      validatePow n m block entry') : entry' = entry :=
    Except.ok.inj (importable.parse.symm.trans parsed)
  unfold Correct
  simp only [Global.newBlk_valid parsed validated]
  cases pow : validatePow entry.id entry.powDifficulty entry.powProof with
  | false =>
    refine iff_of_true ⟨.throws, n, rfl, fun entry' importable => ?_, fun _ => ?_⟩ (.inl rfl)
    · obtain rfl := only importable
      exact nomatch pow.symm.trans importable.pow
    · exact ⟨nofun, rfl, rfl, rfl⟩
  | true =>
    rw [Bool.not_true, if_neg Bool.false_ne_true, or_iff_right Bool.noConfusion]
    split_ifs with here unknown
    · constructor
      · rintro ⟨_, _, ⟨⟩, -, fails⟩
        by_contra impossible
        exact (fails fun ⟨entry', importable⟩ => impossible (only importable ▸ importable)).1 rfl
      · intro importable
        refine ⟨.yes, n, rfl, fun entry' importable' => ?_, fun never => ?_⟩
        · obtain rfl := only importable'
          exact ⟨rfl, here⟩
        · exact absurd ⟨entry, importable⟩ never
    · have absent := Option.isNone_iff_eq_none.1 unknown
      refine iff_of_true ⟨.throws, n, rfl, fun entry' importable => ?_, fun _ => ?_⟩ (.inl absent)
      · obtain rfl := only importable
        have known := importable.previous
        rw [absent] at known
        exact nomatch known
      · exact ⟨nofun, rfl, rfl, rfl⟩
    · have present : n.store.chains.lookup entry.previousId ≠ none := fun absent =>
        unknown (Option.isNone_iff_eq_none.2 absent)
      have known := Option.isSome_iff_ne_none.2 present
      rw [or_iff_right present, ← Global.importNew_same_iff own known]
      constructor
      · rintro ⟨reply, n', ran, succeeds, fails⟩
        have never : ¬ Importable engine P hash fuel emptyGoals write validatePow n m block entry :=
          fun importable => Global.importNew_ne_yes ran (succeeds entry importable).1
        refine ⟨never, reply, n', ran, (fails ?_).2⟩
        exact fun ⟨entry', importable⟩ => never (only importable ▸ importable)
      · rintro ⟨never, reply, n', ran, same⟩
        refine ⟨reply, n', ran, fun entry' importable => ?_, fun _ => ?_⟩
        · exact absurd (only importable ▸ importable) never
        · exact ⟨Global.importNew_ne_yes ran, same⟩

end Import

section Examples

def failing : GlobalEngine Unit where
  execute _ _ := (.no, ())
  reset := id
  stop := id
  openAt _ _ := ()
  discard := id
  executeCut := id
  commit _ _ D := some ((), D)

def storedAt (id previousId : MetaId) (height : UInt32) : StoredEntry :=
  { emptyEntry with
    id, previousId, height
    rootIdMeta := 20
    rootIdHeap := 20
    rootIdClosure := 20
    rootIdSymbols := 20
    rootIdProgram := 20 }

/-- A first entry, one above it, and either of them as the tip -/
def twoEntries (tip : StoredEntry) : Global Unit where
  store :=
    { chains := ((∅ : FMap MetaId StoredEntry).insert (storedAt 1 0 0).id (storedAt 1 0 0)).insert
        (storedAt 2 1 1).id (storedAt 2 1 1)
      tip }
  dbs := leafDatabases
  interp := some ()
  commitVersion := 1
  commitHeight := 0
  commitTime := 0
  commitGoals := []

/-- A block on the first entry -/
def branchProps : List Property := [.id (.big 256 7), .previd (.big 256 1), .height (intCell 1)]

def branch : MetaArg := .metaTerm (branchProps.map .prop)

def branchEntry : MetaEntry := { newEntry with id := 7, previousId := 1, height := 1 }

theorem branch_parsed : branch.parse = .ok branchEntry := rfl

theorem branch_validated : branch.validate (fun _ => 7) branchEntry = some true := by
  rw [branch, MetaArg.validate, dbValidateMeta, validatedBytes_less]
  rfl

theorem twoEntries_own (tip : StoredEntry) : OwnIds (twoEntries tip).store.chains :=
  (ownIds_empty.insert _).insert _

end Examples

end Epilog.Node.BlockImport
