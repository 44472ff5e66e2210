/- Module: Epilog/Node/Builtins
   source: src/src/node/local_interpreter.cpp (me_builtins), src/src/global/global.cpp,
     src/src/db/triedb.cpp (triedb_leaf::read)
   digest: What the builtins of a session do to the node. -/

import Epilog.Db.Merge
import Epilog.Node.BlockImport
import Epilog.Node.MerkleTerms
import Mathlib.Data.UInt

set_option autoImplicit false

namespace Epilog.Node.Builtins

open Epilog.Lib.FiniteMap Epilog.Lib.Fuel Epilog.Lib.Query Epilog.Common.Bits Epilog.Db.Store
  Epilog.Db.Merkle Epilog.Db.Merge Epilog.Global.Chains Epilog.Global.MetaTerms
  Epilog.Global.MetaCodec Epilog.Global.MetaValidation Epilog.Global.MetaRecords
  Epilog.Node.MerkleTerms Epilog.Node.BlockImport
open Epilog.Node.AcceptedTxs (Serializer Mempool)

section State

/-- `initial_funds_`, `maximum_funds_` and `new_funds_per_second_` -/
structure Funds where
  initial : UInt64
  maximum : UInt64
  newPerSecond : UInt64
  deriving DecidableEq

inductive PowMode
  | none | simple | normal
  deriving DecidableEq

/-- `self_node` with its global state -/
structure SelfNode (G T H : Type) where
  funds : Funds
  powMode : PowMode
  global : Global G
  mempool : Mempool T H
  /-- How often the session has been punished -/
  punished : ℕ

/-- The root of an entry in one of the databases, as `get_db_root` gives it -/
def dbRoot (e : StoredEntry) : DbName → UInt64
  | .block => e.rootIdBlocks
  | .state .heap => e.rootIdHeap
  | .state .closure => e.rootIdClosure
  | .state .symbols => e.rootIdSymbols
  | .state .program => e.rootIdProgram

/-- The change that `set_db_root` makes to an entry -/
def withDbRoot (e : StoredEntry) (r : UInt64) : DbName → StoredEntry
  | .block => { e with rootIdBlocks := r }
  | .state .heap => { e with rootIdHeap := r }
  | .state .closure => { e with rootIdClosure := r }
  | .state .symbols => { e with rootIdSymbols := r }
  | .state .program => { e with rootIdProgram := r }

def dbOf (D : Databases) : DbName → Triedb
  | .block => D.blocks
  | .state db => D.state db

def withDb (D : Databases) (s : Triedb) : DbName → Databases
  | .block => { D with blocks := s }
  | .state db => { D with state := Function.update D.state db s }

end State

section Arguments

/-- An argument that should be an integer -/
inductive NumArg
  | int (v : UInt64)
  | var
  | other

/-- An argument that should be an id or the beginning of one -/
inductive IdArg
  | emptyList
  | int (v : UInt64)
  | big (bytes : Bytes)
  | other

inductive ModeArg
  | var
  | mode (m : PowMode)
  | other

/-- The bytes of an integer from the first one on that is not zero -/
def intPrefix (v : UInt64) : Bytes :=
  let bytes := beBytes 8 v.toNat
  (bytes.take 7).dropWhile (· = 0) ++ bytes.drop 7

/-- `find_entries` over the ordered ids of all entries -/
def findEntries (s : MetaStore) (pre : Bytes) : Finset MetaId :=
  let search := pre.foldl (fun n byte => n * 256 + byte.toNat) 0 * 256 ^ (32 - pre.length)
  let later := (ascending s.chains.keys).dropWhile fun id => id.val < search
  (later.takeWhile (isMatch · pre)).toFinset

def genesis (s : MetaStore) : MetaId :=
  (((s.atHeight.lookup 0).map ascending).bind List.head?).getD 0

/-- `get_meta_ids`; nothing when it throws. -/
def getMetaIds (s : MetaStore) : IdArg → Option (Finset MetaId)
  | .emptyList => some {genesis s}
  | .int v => some (findEntries s (intPrefix v))
  | .big bytes => if bytes.length > 32 then none else some (findEntries s bytes)
  | .other => none

/-- `get_meta_id`, which throws unless there is just one -/
def getMetaId (s : MetaStore) (t : IdArg) : Option MetaId := do
  let ids ← getMetaIds s t
  match ascending ids with
  | [id] => some id
  | _ => none

/-- `triedb_leaf::read`: the key and the data; it reads behind the end of the bytes, or an assertion
fails. -/
def readLeaf (bytes : Bytes) : Option (UInt64 × Bytes) :=
  let size := (readUint32 bytes).toNat
  let hashSize := (bytes.getD 4 0).toNat
  let key := UInt64.ofBitVec (readUint64 (bytes.drop 5))
  if 13 ≤ bytes.length ∧ 13 + hashSize ≤ size ∧ size ≤ bytes.length ∧
      size < LEAF_MAX_SIZE_IN_BYTES then
    some (key, (bytes.drop (13 + hashSize)).take (size - (13 + hashSize)))
  else none

/-- A setting of `setup_commit/1`; the last one throws. -/
inductive Setting
  | version (v : UInt64)
  | height (v : UInt32)
  | time (v : UInt64)
  | unrecognized
  | notInteger

end Arguments

section Calls

/-- Builtins that look at the node, or change other things: the session, its connection and its
interpreter, the mailboxes, the synchronization. -/
inductive Aside
  | list_load_2 | id_1 | name_1 | heartbeat_0 | version_1 | comment_1 | datadir_1
  | peers_2 | mailbox_1 | check_mail_0 | send_2 | funds_1 | gstat_1 | chain_0 | chain_3 | tip_1
  | current_1 | height_1 | max_height_1 | goals_2 | block_3 | block_hash_2 | meta_2 | meta_more_2
  | metas_3 | meta_roots_4 | delay_put_metas_1 | branches_2 | follow_3 | sync_init_1 | sync_0
  | sync_1 | sync_complete_1 | sync_mode_1 | syncing_meta_1 | sync_progress_1 | sync_point_2
  | db_get_5 | db_num_3 | db_num_4 | db_size_5 | db_keys_5 | ptask_0 | verify_pow_1

/-- Builtins that begin with `root_check` -/
inductive Guarded
  | operator_at_2 | operator_at_silent_2 | operator_at_parallel_2 | add_address_2
  | connections_0 | connections_1 | ready_2 | new_funds_per_second_1 | commit_1 | wrapfee_4
  | global_1

/-- A call of a builtin, with what it looks at in its arguments -/
inductive Call (T : Type)
  | aside (b : Aside)
  | guarded (b : Guarded) (args : List T)
  | initialFunds (arg : NumArg)
  | nolimit
  | dropGlobal
  | advance
  | discard
  | switch (id : IdArg)
  | setupCommit (now : UInt64)
  | setupCommitTo (settings : Option (List Setting))
  | powMode (arg : ModeArg)
  | validateMeta (m : MetaArg)
  /-- `db_keys/4` and `db_end/2` -/
  | readTree (tree : T)
  | putMeta (m : MetaTerm)
  | putMetas (lst : List MetaTerm)
  | dbPut5 (id : IdArg) (db : Option DbName) (fromKey toKey : Option UInt64) (tree : T)
  | dbPut4 (id : IdArg) (db : Option DbName) (key : Option UInt64) (data : Block T)
  | dbPut3 (id : IdArg) (db : Option DbName) (leaf : Option Bytes)
  | newTx (t : T)
  | pow
  | newBlk (m : MetaArg) (block : Block T)

end Calls

section Steps

variable (P : TriedbParams) (validatePow : MetaId → Flt1648 → PowProof → Bool)

/-- Whether `db_put_meta` throws -/
def putThrows (s : MetaStore) (m : MetaTerm) : Bool :=
  match dbParseMeta m with
  | .error _ => true
  | .ok none => false
  | .ok (some entry) => !validatePow entry.id entry.powDifficulty entry.powProof ||
      entry.previousId ≠ 0 && (s.chains.lookup entry.previousId).isNone

/-- `db_put_metas` -/
def putMetas : MetaStore → List MetaTerm → Option MetaStore
  | s, [] => some s
  | s, m :: lst =>
    if putThrows validatePow s m then some s
    else do
      let s ← s.putMeta P validatePow m
      putMetas s lst

/-- `build_merkle_tree` into a `merkle_root`: nothing when it returns false; the outer option is a
write behind the children. -/
def buildPart {T : Type} (view : T → Shape T) (fuel : ℕ) (t : T) : Option (Option MerkleRoot) :=
  match buildMerkleTree view fuel t with
  | .ok (.branch depth mask _ child hash _, _) =>
    some (some ⟨depth, mask, fun i => (child i).node, hash⟩)
  | .error (.thrown .fails) => some none
  | _ => none

variable {G : Type}

/-- The root of the entry, or a new one -/
def rootFor (D : Databases) (e : StoredEntry) (db : DbName) : Option (UInt64 × Databases) :=
  if dbRoot e db = 0 then
    (newMetaRoot P none (dbOf D db)).map fun made => (made.1, withDb D made.2 db)
  else some (dbRoot e db, D)

/-- What the three `db_put` do at last: write under the root of the entry, and `set_db_root`. -/
def putUnder (n : Global G) (e : StoredEntry) (db : DbName) (write : RootId → Access Unit) :
    Option (Global G) := do
  let (r, D) ← rootFor P n.dbs e db
  let ((), s) ← called (write r.toNat) (dbOf D db)
  let store ← n.store.updateMetaEntry P (withDbRoot e r db)
  return { n with store, dbs := withDb D s db }

/-- What the three `db_put` do at first: nothing when they throw; the inner option is a null
pointer. -/
def putTarget (s : MetaStore) (id : IdArg) (db : Option DbName) :
    Option (Option StoredEntry × DbName) := do
  let id ← getMetaId s id
  let db ← db
  return (s.chains.lookup id, db)

def setupCommitTo (n : Global G) : List Setting → Global G
  | [] => n
  | .version v :: rest => setupCommitTo { n with commitVersion := v } rest
  | .height v :: rest => setupCommitTo { n with commitHeight := v } rest
  | .time v :: rest => setupCommitTo { n with commitTime := v } rest
  | .unrecognized :: rest => setupCommitTo n rest
  | .notInteger :: _ => n

end Steps

section Model

variable {G T H : Type} [DecidableEq H] (engine : GlobalEngine G)
  (serializer : Serializer T Bytes H) (view : T → Shape T) (P : TriedbParams)
  (hash : Bytes → MetaId) (fuel : ℕ) (emptyGoals : Bytes)
  (validatePow : PowMode → MetaId → Flt1648 → PowProof → Bool)
  (searchProof : PowMode → MetaId → Flt1648 → PowProof)
  (asRoot : Guarded → List T → SelfNode G T H → Option (SelfNode G T H))

namespace SelfNode

def newTx (n : SelfNode G T H) (t : T) : SelfNode G T H :=
  match n.global.interp with
  | none => n
  | some g =>
    let after := (AcceptedTxs.newTx engine.toEngine serializer ⟨g, n.mempool, n.punished⟩ t).2
    { n with
      global := { n.global with interp := some after.global }
      mempool := after.mempool
      punished := after.punished }

/-- `total_reset`: the databases are erased, and there is no tip. -/
def dropGlobal (n : SelfNode G T H) : SelfNode G T H :=
  let dbs : Databases := ⟨{}, fun _ => {}⟩
  { n with
    global :=
      { n.global with
        store := {}
        dbs
        interp := some (engine.openAt dbs emptyEntry) } }

/-- `pow/0` -/
def pow (n : SelfNode G T H) : Option (SelfNode G T H) :=
  let tip := n.global.store.tip
  let proof := searchProof n.powMode tip.id tip.powDifficulty
  (n.global.store.updateMetaEntry P { tip with powProof := proof }).map fun store =>
    { n with global := { n.global with store } }

/-- `db_put/5`, where the tree is read before anything is written -/
def dbPut5 (n : SelfNode G T H) (id : IdArg) (db : Option DbName) (fromKey toKey : Option UInt64)
    (tree : T) : Option (SelfNode G T H) :=
  match putTarget n.global.store id db, fromKey, toKey with
  | some (none, _), _, _ => none
  | some (some e, db), some fromKey, some toKey =>
    match buildPart view fuel tree with
    | none => none
    | some none => some n
    | some (some part) =>
      if validateRoot P true part fromKey toKey then
        (putUnder P n.global e db fun r => updateRoot P r part).map fun global => { n with global }
      else some n
  | _, _, _ => some n

def dbPut4 (n : SelfNode G T H) (id : IdArg) (db : Option DbName) (key : Option UInt64)
    (data : Block T) : Option (SelfNode G T H) :=
  match putTarget n.global.store id db, key with
  | some (none, _), _ => none
  | some (some e, db), some key =>
    (putUnder P n.global e db fun r => update P r key (data.buffer serializer.write)).map
      fun global => { n with global }
  | _, _ => some n

def dbPut3 (n : SelfNode G T H) (id : IdArg) (db : Option DbName) (leaf : Option Bytes) :
    Option (SelfNode G T H) :=
  match putTarget n.global.store id db, leaf with
  | some (none, _), _ => none
  | some (some e, db), some leaf =>
    match readLeaf leaf with
    | none => none
    | some (key, data) =>
      (putUnder P n.global e db fun r => update P r key data).map fun global => { n with global }
  | _, _ => some n

/-- `validate_meta/1`; the comparison leaves out the proof of work. -/
def validateMeta (n : SelfNode G T H) (m : MetaArg) : Option (SelfNode G T H) :=
  match m.parse with
  | .error _ => some n
  | .ok entry =>
    match n.global.store.chains.lookup entry.id with
    | none => some n
    | some found =>
      if { entry with powProof := found.powProof } = found.toMetaEntry then
        (m.validate hash entry).map fun _ => n
      else some n

/-- What a call leaves of the node, also when it fails or throws. The option is a failed assertion,
undefined behaviour, or an exception in the middle of a commit. -/
def call (isRoot : Bool) (n : SelfNode G T H) : Call T → Option (SelfNode G T H)
  | .aside _ => some n
  | .guarded b args => if isRoot then asRoot b args n else some n
  | .initialFunds (.int v) => some { n with funds := { n.funds with initial := v } }
  | .initialFunds _ => some n
  | .nolimit =>
    some { n with funds := { n.funds with maximum := 2 ^ 64 - 1, newPerSecond := 2 ^ 64 - 1 } }
  | .dropGlobal => some (n.dropGlobal engine)
  | .advance =>
    match n.global.interp with
    | none => some n
    | some g =>
      (n.global.incrementHeight engine P hash fuel emptyGoals (engine.executeCut g)).map
        fun global => { n with global }
  | .discard => some
    { n with global := { n.global with interp := n.global.interp.map engine.discard } }
  | .switch id =>
    match getMetaId n.global.store id with
    | none => some n
    | some id => some { n with global := n.global.setTip engine id }
  | .setupCommit now => some
    { n with
      global :=
        { n.global with
          commitVersion := 1
          commitTime := now
          commitHeight := n.global.store.tip.height } }
  | .setupCommitTo settings =>
    some { n with global := Builtins.setupCommitTo n.global (settings.getD []) }
  | .powMode (.mode m) => some { n with powMode := m }
  | .powMode _ => some n
  | .validateMeta m => n.validateMeta hash m
  | .readTree tree => (buildPart view fuel tree).map fun _ => n
  | .putMeta m => (n.global.store.putMeta P (validatePow n.powMode) m).map fun store =>
    { n with global := { n.global with store } }
  | .putMetas lst =>
    (Builtins.putMetas P (validatePow n.powMode) n.global.store lst).map fun store =>
      { n with global := { n.global with store } }
  | .dbPut5 id db fromKey toKey tree => n.dbPut5 view P fuel id db fromKey toKey tree
  | .dbPut4 id db key data => n.dbPut4 serializer P id db key data
  | .dbPut3 id db leaf => n.dbPut3 P id db leaf
  | .newTx t => some (n.newTx engine serializer t)
  | .pow => n.pow P searchProof
  | .newBlk m block =>
    (n.global.newBlk engine P hash fuel emptyGoals serializer.write (validatePow n.powMode) m
      block).map fun result => { n with global := result.2 }

end SelfNode

end Model

end Epilog.Node.Builtins
