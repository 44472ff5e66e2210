/- Module: Epilog/Node/SessionRights
   source: src/src/node/local_interpreter.cpp (me_builtins, root_check)
   digest: What a session without root rights leaves as it was, and in which runs. -/

import Epilog.Db.Persistence
import Epilog.Node.Builtins

set_option autoImplicit false

namespace Epilog.Node.SessionRights

open Epilog.Lib.FiniteMap Epilog.Db.Store Epilog.Db.Iterator Epilog.Db.Versioned Epilog.Db.Roots
  Epilog.Db.Merkle Epilog.Db.Merge Epilog.Db.Canonicity Epilog.Db.Persistence Epilog.Global.Chains
  Epilog.Global.MetaTerms Epilog.Global.MetaCodec Epilog.Global.MetaValidation
  Epilog.Global.MetaRecords Epilog.Global.MetaForest Epilog.Node.MerkleTerms
  Epilog.Node.BlockImport Epilog.Node.Builtins
open Epilog.Node.AcceptedTxs (Serializer executeGoal)

section Statement

variable {G T H : Type} [DecidableEq H] (engine : GlobalEngine G)
  (serializer : Serializer T Bytes H) (view : T → Shape T) (P : TriedbParams)
  (hash : Bytes → MetaId) (fuel : ℕ) (emptyGoals : Bytes)
  (validatePow : PowMode → MetaId → Flt1648 → PowProof → Bool)
  (searchProof : PowMode → MetaId → Flt1648 → PowProof)
  (asRoot : Guarded → List T → SelfNode G T H → Option (SelfNode G T H))

/-- The leaves of a tree with their hashes -/
def leafHashes : MerkleNode → List (UInt64 × Bytes)
  | .null => []
  | .leaf key _ hash => [(key, hash)]
  | .branch _ _ child _ => (List.finRange 32).flatMap fun i => leafHashes (child i)

/-- The part belongs to what the id of an entry commits to: to the hash of the root, or of the
block. -/
def Matches (id : MetaId) (db : DbName) (part : MerkleRoot) : Prop :=
  ∃ items entry scan, parseItems items = .ok (some entry) ∧ entry.id = id ∧
    dbValidateMeta hash items entry = some true ∧ scanItems items = .ok scan ∧
      match db with
      | .state _ => (scan db).1.bytes = .ok part.hash
      | .block => ∃ h, (scan db).1.bytes = .ok h ∧
          (entry.height.toUInt64, h) ∈ leafHashes part.node

/-- A range that is put under an entry: it is consistent, and the right one. -/
def PutsRange (n : SelfNode G T H) (e : StoredEntry) (db : DbName) : Call T → Prop
  | .dbPut5 id name fromKey toKey tree =>
    ∃ from' to' part, putTarget n.global.store id name = some (some e, db) ∧
      fromKey = some from' ∧ toKey = some to' ∧ buildPart view fuel tree = some (some part) ∧
        validateRoot P true part from' to' = true ∧ Matches hash e.id db part
  | _ => False

/-- A valid block that is executed successfully on its previous entry -/
def Commits (n n' : SelfNode G T H) : Call T → Prop
  | .newBlk m block => ∃ entry, m.parse = .ok entry ∧ m.validate hash entry = some true ∧
      validatePow n.powMode entry.id entry.powDifficulty entry.powProof = true ∧
        (n.global.prepared engine entry).executeCommit engine P hash fuel emptyGoals
          (block.buffer serializer.write) = some (.yes, n'.global)
  | _ => False

/-- A transaction that is executed successfully on the state of the tip -/
def Transacts (n n' : SelfNode G T H) : Call T → Prop
  | .newTx t => n'.global.store = n.global.store ∧ ∃ g g', n.global.interp = some g ∧
      engine.execute g (serializer.write t) = (.yes, g') ∧ n'.global.interp = some (engine.stop g')
  | _ => False

/-- What could be read under the root of an entry can be read there. -/
structure Readable (n n' : SelfNode G T H) (e e' : StoredEntry) (db : DbName) : Prop where
  root : dbRoot e' db = dbRoot e db
  found : Known (dbOf n.global.dbs db) (dbRoot e db).toNat → ∀ fuel key found,
    find (dbOf n.global.dbs db) fuel (dbRoot e db).toNat key = some found →
      find (dbOf n'.global.dbs db) fuel (dbRoot e db).toNat key = some found

/-- The funding policy and the proof-of-work mode are as they were. So are the tip and its state,
the entries and the contents of their databases, but for what has been validated: entries with
proof of work, ranges that match an entry, transactions and blocks. -/
structure Confined (n : SelfNode G T H) (c : Call T) (n' : SelfNode G T H) : Prop where
  funds : n'.funds = n.funds
  powMode : n'.powMode = n.powMode
  state : (n'.global.store.tip = n.global.store.tip ∧ n'.global.interp = n.global.interp) ∨
    Transacts engine serializer n n' c ∨
      Commits engine serializer P hash fuel emptyGoals validatePow n n' c
  added : ∀ id e', n'.global.store.chains.lookup id = some e' →
    n.global.store.chains.lookup id = none →
      validatePow n.powMode e'.id e'.powDifficulty e'.powProof = true ∨
        Commits engine serializer P hash fuel emptyGoals validatePow n n' c ∧
          id = n'.global.store.tip.id
  kept : ∀ id e, n.global.store.chains.lookup id = some e →
    ∃ e', n'.global.store.chains.lookup id = some e' ∧ e'.toMetaEntry = e.toMetaEntry ∧
      ((Commits engine serializer P hash fuel emptyGoals validatePow n n' c ∧
          id = n'.global.store.tip.id) ∨
        ∀ db, Readable n n' e e' db ∨
          ∃ e₀, PutsRange view P hash fuel n e₀ db c ∧
            (e₀ = e ∨ dbRoot e db ≠ 0 ∧ dbRoot e₀ db = dbRoot e db))

/-- Every call of a session comes to an end, and is confined. -/
def Secure (isRoot : Bool) : SelfNode G T H → List (Call T) → Prop
  | _, [] => True
  | n, c :: cs => ∃ n', n.call engine serializer view P hash fuel emptyGoals validatePow searchProof
      asRoot isRoot c = some n' ∧
        Confined engine serializer view P hash fuel emptyGoals validatePow n c n' ∧
          Secure isRoot n' cs

/-- The streams are at the ends of their files, where a new root is nobody's. -/
def AtEnds (D : Databases) : Prop := ∀ db, (dbOf D db).rootsPos = (dbOf D db).rootsEnd

/-- A block is executed on a state that has its roots, or fails on the tip without a trace. -/
def BlockMeets (n : Global G) (entry : MetaEntry) (buf : Bytes) : Prop :=
  (∃ n', (n.prepared engine entry).executeCommit engine P hash fuel emptyGoals buf =
      some (.yes, n') ∧ ((n.prepared engine entry).store.tip.rootIdMeta = 0 → AtEnds n.dbs)) ∨
    n.store.tip.id = entry.previousId ∧ Undone engine n.interp buf

/-- Where a range is put: it matches the entry, and a new root is taken at the end of the file. -/
def RangeMeets (n : Global G) (e : StoredEntry) (db : DbName) (part : MerkleRoot) : Prop :=
  Matches hash e.id db part ∧
    (dbRoot e db = 0 → (dbOf n.dbs db).rootsPos = (dbOf n.dbs db).rootsEnd)

/-- The calls that are confined: the ones that would change something throw or fail before, or have
their input validated. -/
def Allowed (n : SelfNode G T H) : Call T → Prop
  | .aside _ | .guarded _ _ | .setupCommit _ | .setupCommitTo _ | .validateMeta _ | .readTree _
  | .putMeta _ | .putMetas _ => True
  | .initialFunds (.int v) => v = n.funds.initial
  | .initialFunds _ => True
  | .nolimit => n.funds.maximum = 2 ^ 64 - 1 ∧ n.funds.newPerSecond = 2 ^ 64 - 1
  | .dropGlobal => n.global.store.chains = ∅ ∧ n.global.store.tip = emptyEntry ∧
      n.global.interp = some (engine.openAt ⟨{}, fun _ => {}⟩ emptyEntry)
  | .advance => n.global.interp = none
  | .discard => n.global.interp.map engine.discard = n.global.interp
  | .switch id => ∀ id' e, getMetaId n.global.store id = some id' →
      n.global.store.chains.lookup id' = some e → e = n.global.store.tip ∧
        n.global.interp = if isPartial e then none else some (engine.openAt n.global.dbs e)
  | .powMode (.mode m) => m = n.powMode
  | .powMode _ => True
  | .dbPut5 id db fromKey toKey tree => ∀ e db' from' to' part,
      putTarget n.global.store id db = some (some e, db') → fromKey = some from' →
        toKey = some to' → buildPart view fuel tree = some (some part) →
          validateRoot P true part from' to' = true → RangeMeets hash n.global e db' part
  | .dbPut4 id db key _ => putTarget n.global.store id db = none ∨ key = none
  | .dbPut3 id db leaf => putTarget n.global.store id db = none ∨ leaf = none
  | .newTx t => ∀ g, n.global.interp = some g →
      match engine.execute g (serializer.write t) with
      | (.yes, _) => True
      | (.no, g') => engine.reset (engine.reset g') = g
      | (.throws, g') => engine.reset g' = g
      | (.escapes, g') => g' = g
  | .pow => n.global.store.chains.lookup n.global.store.tip.id = some n.global.store.tip ∧
      searchProof n.powMode n.global.store.tip.id n.global.store.tip.powDifficulty =
        n.global.store.tip.powProof
  | .newBlk m block => ∀ entry, m.parse = .ok entry → m.validate hash entry = some true →
      validatePow n.powMode entry.id entry.powDifficulty entry.powProof = true →
        n.global.store.chains.lookup entry.id = none →
          (n.global.store.chains.lookup entry.previousId).isSome = true →
            BlockMeets engine P hash fuel emptyGoals n.global entry (block.buffer serializer.write)

/-- A run of such calls, each of which comes to an end -/
def AllMeet (isRoot : Bool) : SelfNode G T H → List (Call T) → Prop
  | _, [] => True
  | n, c :: cs =>
    Allowed engine serializer view P hash fuel emptyGoals validatePow searchProof n c ∧
      ∃ n', n.call engine serializer view P hash fuel emptyGoals validatePow searchProof asRoot
        isRoot c = some n' ∧ AllMeet isRoot n' cs

/-- The databases only grow, and the entries are found under their ids. -/
structure Sane (n : SelfNode G T H) : Prop where
  settled : ∀ db, Settled (dbOf n.global.dbs db)
  own : OwnIds n.global.store.chains

/-- The state databases are committed by writing under the roots of the tip. -/
def CommitsByWriting : Prop :=
  ∀ g e D g' D', engine.commit g e D = some (g', D') → D'.blocks = D.blocks ∧
    ∀ db, ∃ ops, (∀ op ∈ ops, WritesAt (rootId e db) op) ∧
      runOps P (D.state db) ops = some (D'.state db)

end Statement

section Entries

variable {P : TriedbParams} {validatePow : MetaId → Flt1648 → PowProof → Bool}
  {s s' s'' : MetaStore}

/-- Entries with proof of work come in, under their ids; all else stays. -/
structure Admits (validatePow : MetaId → Flt1648 → PowProof → Bool) (s s' : MetaStore) : Prop where
  tip : s'.tip = s.tip
  kept : ∀ id e, s.chains.lookup id = some e → s'.chains.lookup id = some e
  added : ∀ id e, s'.chains.lookup id = some e → s.chains.lookup id = none →
    validatePow e.id e.powDifficulty e.powProof = true
  own : OwnIds s.chains → OwnIds s'.chains

theorem Admits.refl : Admits validatePow s s where
  tip := rfl
  kept _ _ found := found
  added _ _ found absent := nomatch absent.symm.trans found
  own := id

theorem Admits.trans (first : Admits validatePow s s') (second : Admits validatePow s' s'') :
    Admits validatePow s s'' where
  tip := second.tip.trans first.tip
  kept id e found := second.kept id e (first.kept id e found)
  added id e found absent := by
    cases between : s'.chains.lookup id with
    | none => exact second.added id e found between
    | some e' =>
      obtain rfl : e' = e := Option.some.inj ((second.kept id e' between).symm.trans found)
      exact first.added id e' between absent
  own := second.own ∘ first.own

theorem updateMetaEntry_some {e : StoredEntry} (ran : s.updateMetaEntry P e = some s') :
    s'.chains = s.chains.insert e.id e ∧ s'.tip = s.tip := by
  obtain ⟨_, -, ran⟩ := Option.bind_eq_some_iff.1 ran
  rw [← Option.some.inj ran]
  exact ⟨rfl, rfl⟩

theorem addMetaEntry_some {e e' : StoredEntry} (ran : s.addMetaEntry P e = some (e', s')) :
    e'.toMetaEntry = e.toMetaEntry ∧ s'.chains = s.chains.insert e.id e' ∧ s'.tip = s.tip := by
  obtain ⟨parent, -, ran⟩ := Option.bind_eq_some_iff.1 ran
  obtain ⟨⟨r, db⟩, -, ran⟩ := Option.bind_eq_some_iff.1 ran
  obtain ⟨s₁, updated, made⟩ := Option.bind_eq_some_iff.1 ran
  obtain ⟨rfl, rfl⟩ := Prod.mk.inj (Option.some.inj made)
  exact ⟨rfl, updateMetaEntry_some updated⟩

theorem admits_putMeta {m : MetaTerm} (ran : s.putMeta P validatePow m = some s') :
    Admits validatePow s s' := by
  rw [MetaStore.putMeta] at ran
  split at ran
  case h_2 =>
    rw [← Option.some.inj ran]
    exact .refl
  case h_1 entry parsed =>
    split_ifs at ran with fits
    · obtain ⟨⟨e, s₁⟩, inserted, made⟩ := Option.map_eq_some_iff.1 ran
      obtain rfl : s₁ = s' := made
      obtain ⟨same, chains, tip⟩ := addMetaEntry_some inserted
      obtain ⟨pow, -, -, absent⟩ := fits
      refine ⟨tip, fun id e' found => ?_, fun id e' found unknown => ?_, fun own =>
        own.addMetaEntry inserted⟩
      · have other : id ≠ entry.id := by
          rintro rfl
          cases absent.symm.trans found
        rw [chains, lookup_insert_ite, if_neg other, found]
      · rw [chains, lookup_insert_ite] at found
        split_ifs at found with here
        · rw [← Option.some.inj found, same]
          exact pow
        · cases unknown.symm.trans found
    · rw [← Option.some.inj ran]
      exact .refl

theorem admits_putMetas {lst : List MetaTerm} (ran : putMetas P validatePow s lst = some s') :
    Admits validatePow s s' := by
  induction lst generalizing s with
  | nil =>
    rw [← Option.some.inj ran]
    exact .refl
  | cons m lst ih =>
    rw [putMetas] at ran
    split_ifs at ran with throws
    · rw [← Option.some.inj ran]
      exact .refl
    · obtain ⟨s₁, put, ran⟩ := Option.bind_eq_some_iff.1 ran
      exact (admits_putMeta put).trans (ih ran)

end Entries

section Databases

variable {P : TriedbParams} {G : Type} {n n' : Global G}

theorem dbOf_withDb (D : Databases) (s : Triedb) (db db' : DbName) :
    dbOf (withDb D s db) db' = if db' = db then s else dbOf D db' := by
  cases db with
  | block =>
    cases db' with
    | block => rfl
    | state b' => rfl
  | state b =>
    cases db' with
    | block => rfl
    | state b' =>
      simp only [dbOf, withDb, Function.update_apply, DbName.state.injEq]

theorem dbRoot_withDbRoot (e : StoredEntry) (r : UInt64) (db db' : DbName) :
    dbRoot (withDbRoot e r db) db' = if db' = db then r else dbRoot e db' := by
  cases db with
  | block =>
    cases db' with
    | block => rfl
    | state b' => cases b' <;> rfl
  | state b =>
    cases db' with
    | block => cases b <;> rfl
    | state b' => cases b <;> cases b' <;> rfl

theorem withDbRoot_toMetaEntry (e : StoredEntry) (r : UInt64) (db : DbName) :
    (withDbRoot e r db).toMetaEntry = e.toMetaEntry := by
  cases db with
  | block => rfl
  | state b => cases b <;> rfl

theorem persists_newMetaRoot {db db' : Triedb} {parent : Option RootId} {r : UInt64}
    (settled : Settled db) (atEnd : parent = none → db.rootsPos = db.rootsEnd)
    (ran : newMetaRoot P parent db = some (r, db')) :
    Persists (fun _ => False) db db' ∧ ¬ Known db r.toNat := by
  obtain ⟨⟨r₁, db₁⟩, created, ran⟩ := Option.bind_eq_some_iff.1 ran
  obtain ⟨r₂, given, ran⟩ := Option.bind_eq_some_iff.1 ran
  obtain ⟨rfl, rfl⟩ := Prod.mk.inj (Option.some.inj ran)
  rw [toRootId_some given]
  cases parent with
  | none => exact persists_newRoot settled (atEnd rfl) (called_some created)
  | some parent => exact persists_newRootFrom settled (called_some created)

/-- What is left when something is put under an entry -/
structure Put (n : Global G) (e : StoredEntry) (db : DbName) (r : UInt64) (n' : Global G) :
    Prop where
  root : if dbRoot e db = 0 then ¬ Known (dbOf n.dbs db) r.toNat else r = dbRoot e db
  chains : n'.store.chains = n.store.chains.insert e.id (withDbRoot e r db)
  tip : n'.store.tip = n.store.tip
  interp : n'.interp = n.interp
  written : Persists (· = r.toNat) (dbOf n.dbs db) (dbOf n'.dbs db)
  others : ∀ db', db' ≠ db → dbOf n'.dbs db' = dbOf n.dbs db'

theorem put_of_putUnder {e : StoredEntry} {db : DbName} {write : RootId → Access Unit}
    (writes : ∀ r, Writes r (write r)) (settled : Settled (dbOf n.dbs db))
    (atEnd : dbRoot e db = 0 → (dbOf n.dbs db).rootsPos = (dbOf n.dbs db).rootsEnd)
    (ran : putUnder P n e db write = some n') : ∃ r, Put n e db r n' := by
  obtain ⟨⟨r, D⟩, rooted, ran⟩ := Option.bind_eq_some_iff.1 ran
  obtain ⟨⟨u, s⟩, wrote, ran⟩ := Option.bind_eq_some_iff.1 ran
  obtain ⟨store, updated, ran⟩ := Option.bind_eq_some_iff.1 ran
  obtain ⟨chains, tip⟩ := updateMetaEntry_some updated
  rw [show (withDbRoot e r db).id = e.id from
    congrArg (·.id) (withDbRoot_toMetaEntry e r db)] at chains
  rw [← Option.some.inj ran]
  have wrote := called_some wrote
  rw [rootFor] at rooted
  split_ifs at rooted with zero
  · obtain ⟨⟨r₁, s₁⟩, made, same⟩ := Option.map_eq_some_iff.1 rooted
    obtain ⟨rfl, rfl⟩ := Prod.mk.inj same
    obtain ⟨opened, unused⟩ := persists_newMetaRoot settled (fun _ => atEnd zero) made
    dsimp only at wrote
    rw [dbOf_withDb, if_pos rfl] at wrote
    refine ⟨r₁, by rwa [if_pos zero], chains, tip, rfl, ?_, fun db' other => ?_⟩
    · dsimp only
      rw [dbOf_withDb, if_pos rfl]
      exact (opened.imp fun _ _ never => never.elim).trans ((writes _).ok opened.settled wrote)
    · dsimp only
      rw [dbOf_withDb, if_neg other, dbOf_withDb, if_neg other]
  · obtain ⟨rfl, rfl⟩ := Prod.mk.inj (Option.some.inj rooted)
    refine ⟨_, by rw [if_neg zero], chains, tip, rfl, ?_, fun db' other => ?_⟩
    · dsimp only
      rw [dbOf_withDb, if_pos rfl]
      exact (writes _).ok settled wrote
    · dsimp only
      rw [dbOf_withDb, if_neg other]

end Databases

section Blocks

variable {G : Type} {engine : GlobalEngine G} {P : TriedbParams} {hash : Bytes → MetaId}
  {fuel : ℕ} {emptyGoals : Bytes} {n n' : Global G}

theorem updateTip_some {s s' : MetaStore} {id : MetaId} (ran : s.updateTip P id = some s') :
    s'.tip.id = id ∧ (∀ other, other ≠ id → s'.chains.lookup other = s.chains.lookup other) ∧
      ∀ e, s.chains.lookup id = some e →
        ∃ e', s'.chains.lookup id = some e' ∧ e'.toMetaEntry = e.toMetaEntry := by
  rw [MetaStore.updateTip] at ran
  cases found : s.chains.lookup id with
  | some e =>
    rw [found] at ran
    rw [← Option.some.inj ran]
    dsimp only
    split_ifs with same
    · refine ⟨rfl, fun other ne => ?_, ?_⟩
      · rw [lookup_insert_ite, if_neg ne]
      · rintro _ ⟨⟩
        exact ⟨_, (lookup_insert_ite _ _ _ _).trans (if_pos rfl), rfl⟩
    · refine ⟨rfl, fun _ _ => rfl, ?_⟩
      rintro _ ⟨⟩
      exact ⟨e, found, rfl⟩
  | none =>
    rw [found] at ran
    obtain ⟨⟨tip, s₁⟩, inserted, made⟩ := Option.bind_eq_some_iff.1 ran
    obtain ⟨same, chains, -⟩ := addMetaEntry_some inserted
    rw [← Option.some.inj made]
    have named : tip.id = id := congrArg MetaEntry.id same
    refine ⟨named, fun other ne => ?_, fun e absent => (Option.some_ne_none e absent.symm).elim⟩
    dsimp only
    rw [chains, lookup_insert_ite, if_neg ne]

theorem persists_newStateRoots {tip roots : StoredEntry} {D D' : Databases}
    (settled : ∀ db, Settled (dbOf D db)) (atEnds : tip.rootIdMeta = 0 → AtEnds D)
    (ran : Global.newStateRoots P tip D = some (roots, D')) (db : DbName) :
    Persists (fun _ => False) (dbOf D db) (dbOf D' db) ∧
      ¬ Known (dbOf D db) (dbRoot roots db).toNat := by
  have one (name : DbName) {db' : Triedb} {r r' : UInt64}
      (made : newMetaRoot P (if tip.rootIdMeta = 0 then none else some r.toNat) (dbOf D name) =
        some (r', db')) :
      Persists (fun _ => False) (dbOf D name) db' ∧ ¬ Known (dbOf D name) r'.toNat := by
    refine persists_newMetaRoot (settled name) (fun orphan => atEnds ?_ name) made
    by_contra below
    rw [if_neg below] at orphan
    exact nomatch orphan
  obtain ⟨⟨blocks, blocksDb⟩, atBlocks, ran⟩ := Option.bind_eq_some_iff.1 ran
  obtain ⟨⟨heap, heapDb⟩, atHeap, ran⟩ := Option.bind_eq_some_iff.1 ran
  obtain ⟨⟨closure, closureDb⟩, atClosure, ran⟩ := Option.bind_eq_some_iff.1 ran
  obtain ⟨⟨symbols, symbolsDb⟩, atSymbols, ran⟩ := Option.bind_eq_some_iff.1 ran
  obtain ⟨⟨program, programDb⟩, atProgram, ran⟩ := Option.bind_eq_some_iff.1 ran
  obtain ⟨rfl, rfl⟩ := Prod.mk.inj (Option.some.inj ran)
  cases db with
  | block => exact one .block atBlocks
  | state b =>
    cases b with
    | heap => exact one (.state .heap) atHeap
    | closure => exact one (.state .closure) atClosure
    | symbols => exact one (.state .symbols) atSymbols
    | program => exact one (.state .program) atProgram

theorem rootId_eq_dbRoot (e : StoredEntry) (b : StateDb) :
    rootId e b = (dbRoot e (.state b)).toNat := by
  cases b <;> rfl

theorem persists_written {tip : StoredEntry} {D D₁ D' : Databases} {g g' : G} {goals : Bytes}
    (writing : CommitsByWriting engine P) (settled : ∀ db, Settled (dbOf D db))
    (committed : engine.commit g tip D = some (g', D₁))
    (wrote : Global.setBlock P tip goals D₁ = some D') (db : DbName) :
    Persists (· = (dbRoot tip db).toNat) (dbOf D db) (dbOf D' db) := by
  obtain ⟨blocks, state⟩ := writing g tip D g' D₁ committed
  obtain ⟨⟨u, s⟩, updated, made⟩ := Option.bind_eq_some_iff.1 wrote
  rw [← Option.some.inj made]
  cases db with
  | block =>
    have updated := called_some updated
    rw [blocks] at updated
    exact (writes_insertOrUpdate P _ _ false).ok (settled .block) updated
  | state b =>
    obtain ⟨ops, at', ran⟩ := state b
    rw [← rootId_eq_dbRoot]
    exact persists_run at' (settled (.state b)) ran

/-- What a block leaves that has been executed: nothing changes but the tip and its entry. -/
structure Advanced (n n' : Global G) : Prop where
  others : ∀ id, id ≠ n'.store.tip.id → n'.store.chains.lookup id = n.store.chains.lookup id
  kept : ∀ e, n.store.chains.lookup n'.store.tip.id = some e →
    ∃ e', n'.store.chains.lookup n'.store.tip.id = some e' ∧ e'.toMetaEntry = e.toMetaEntry
  own : OwnIds n.store.chains → OwnIds n'.store.chains
  persists : ∀ db, Persists (fun _ => False) (dbOf n.dbs db) (dbOf n'.dbs db)

theorem advanced_incrementHeight {g : G} (writing : CommitsByWriting engine P)
    (settled : ∀ db, Settled (dbOf n.dbs db)) (atEnds : n.store.tip.rootIdMeta = 0 → AtEnds n.dbs)
    (ran : n.incrementHeight engine P hash fuel emptyGoals g = some n') : Advanced n n' := by
  obtain ⟨⟨roots, D₁⟩, rooted, ran⟩ := Option.bind_eq_some_iff.1 ran
  obtain ⟨s₁, advanced, ran⟩ := Option.bind_eq_some_iff.1 ran
  obtain ⟨⟨g₁, D₂⟩, committed, ran⟩ := Option.bind_eq_some_iff.1 ran
  obtain ⟨D₃, wrote, ran⟩ := Option.bind_eq_some_iff.1 ran
  obtain ⟨tip, -, ran⟩ := Option.bind_eq_some_iff.1 ran
  obtain ⟨s₂, updated, made⟩ := Option.bind_eq_some_iff.1 ran
  obtain ⟨⟨r, db⟩, -, stepped⟩ := Option.bind_eq_some_iff.1 advanced
  have opened := persists_newStateRoots settled atEnds rooted
  have written := persists_written writing (fun db => (opened db).1.settled) committed wrote
  obtain ⟨named, others, kept⟩ := updateTip_some updated
  rw [← Option.some.inj made]
  rw [← Option.some.inj stepped] at written others kept
  refine ⟨fun id other => ?_, fun e found => ?_, fun own => ?_, fun db => ?_⟩
  · exact others id (named ▸ other)
  · dsimp only at found ⊢
    rw [named] at found ⊢
    exact kept e found
  · refine OwnIds.updateTip ?_ updated
    rw [← Option.some.inj stepped]
    exact own
  · obtain ⟨opened, unused⟩ := opened db
    have same : dbRoot (advance n.store.tip { roots with rootIdMeta := r } n.commitVersion
        n.commitTime) db = dbRoot roots db := by
      cases db with
      | block => rfl
      | state b => cases b <;> rfl
    have written := written db
    rw [same] at written
    have opened : Persists (· = (dbRoot roots db).toNat) _ _ :=
      opened.imp fun _ _ never => never.elim
    -- nothing is known under the new root
    exact (opened.trans written).imp fun q known here => unused (here ▸ known)

variable (engine) in
theorem prepared_kept (n : Global G) (entry : MetaEntry) :
    (n.prepared engine entry).store.chains = n.store.chains ∧
      (n.prepared engine entry).dbs = n.dbs := by
  rw [Global.prepared]
  split_ifs
  · rw [Global.setTip]
    cases found : n.store.chains.lookup entry.previousId with
    | none => exact ⟨rfl, rfl⟩
    | some e =>
      refine ⟨?_, rfl⟩
      simp only [Global.setupCommit, MetaStore.setTip, found]
  · exact ⟨rfl, rfl⟩

theorem advanced_executeCommit {entry : MetaEntry} {buf : Bytes}
    (writing : CommitsByWriting engine P) (settled : ∀ db, Settled (dbOf n.dbs db))
    (atEnds : (n.prepared engine entry).store.tip.rootIdMeta = 0 → AtEnds n.dbs)
    (ran : (n.prepared engine entry).executeCommit engine P hash fuel emptyGoals buf =
      some (.yes, n')) : Advanced n n' := by
  obtain ⟨chains, dbs⟩ := prepared_kept engine n entry
  generalize n.prepared engine entry = m at atEnds ran chains dbs
  rw [Global.executeCommit] at ran
  split at ran
  · cases congrArg Prod.fst (Option.some.inj ran)
  · split at ran
    · cases congrArg Prod.fst (Option.some.inj ran)
    · cases congrArg Prod.fst (Option.some.inj ran)
    · obtain ⟨n₁, incremented, made⟩ := Option.map_eq_some_iff.1 ran
      obtain rfl : n₁ = n' := congrArg Prod.snd made
      rw [← dbs] at settled atEnds
      have advanced : Advanced { m with commitGoals := buf } n₁ :=
        advanced_incrementHeight writing settled atEnds incremented
      refine ⟨fun id other => ?_, fun e found => ?_, fun own => ?_, fun db => ?_⟩
      · exact (advanced.others id other).trans (congrArg _ chains)
      · exact advanced.kept e ((congrArg _ chains).trans found)
      · exact advanced.own (chains ▸ own)
      · exact dbs ▸ advanced.persists db

end Blocks

section Calls

variable {G T H : Type} {engine : GlobalEngine G} {serializer : Serializer T Bytes H}
  {view : T → Shape T} {P : TriedbParams} {hash : Bytes → MetaId} {fuel : ℕ} {emptyGoals : Bytes}
  {validatePow : PowMode → MetaId → Flt1648 → PowProof → Bool} {n n' : SelfNode G T H}
  {c : Call T}

theorem Readable.of_same {e e' : StoredEntry} {db : DbName} (root : dbRoot e' db = dbRoot e db)
    (same : dbOf n'.global.dbs db = dbOf n.global.dbs db) : Readable n n' e e' db :=
  ⟨root, fun _ _ _ _ ran => same ▸ ran⟩

theorem Readable.of_persists {e : StoredEntry} {db : DbName} {except : RootId → Prop}
    (persists : Persists except (dbOf n.global.dbs db) (dbOf n'.global.dbs db))
    (other : Known (dbOf n.global.dbs db) (dbRoot e db).toNat → ¬ except (dbRoot e db).toNat) :
    Readable n n' e e db :=
  ⟨rfl, fun known _ _ _ ran => persists.find known (other known) ran⟩

theorem confined_of_admits (sane : Sane n) (funds : n'.funds = n.funds)
    (powMode : n'.powMode = n.powMode)
    (state : n'.global.interp = n.global.interp ∨ Transacts engine serializer n n' c)
    (dbs : n'.global.dbs = n.global.dbs)
    (admits : Admits (validatePow n.powMode) n.global.store n'.global.store) :
    Confined engine serializer view P hash fuel emptyGoals validatePow n c n' ∧ Sane n' where
  left :=
    { funds, powMode
      state := state.elim (fun interp => .inl ⟨admits.tip, interp⟩) fun transacts =>
        .inr (.inl transacts)
      added := fun id e found absent => .inl (admits.added id e found absent)
      kept := fun id e found =>
        ⟨e, admits.kept id e found, rfl, .inr fun db => .inl (.of_same rfl (by rw [dbs]))⟩ }
  right := ⟨fun db => by rw [dbs]; exact sane.settled db, admits.own sane.own⟩

theorem confined_same (sane : Sane n) :
    Confined engine serializer view P hash fuel emptyGoals validatePow n c n ∧ Sane n :=
  confined_of_admits sane rfl rfl (.inl rfl) rfl .refl

theorem sane_of_empty {n : SelfNode G T H} (chains : n.global.store.chains = ∅)
    (dbs : ∀ db, dbOf n.global.dbs db = {}) : Sane n :=
  ⟨fun db => by rw [dbs]; exact settled_empty, by rw [chains]; exact ownIds_empty⟩

theorem setupCommitTo_same (settings : List Setting) (g : Global G) :
    Same g (Builtins.setupCommitTo g settings) := by
  induction settings generalizing g with
  | nil => exact ⟨rfl, rfl, rfl⟩
  | cons setting rest ih =>
    cases setting with
    | version v => exact ⟨(ih _).store, (ih _).dbs, (ih _).interp⟩
    | height v => exact ⟨(ih _).store, (ih _).dbs, (ih _).interp⟩
    | time v => exact ⟨(ih _).store, (ih _).dbs, (ih _).interp⟩
    | unrecognized => exact ih _
    | notInteger => exact ⟨rfl, rfl, rfl⟩

theorem confined_pow {searchProof : PowMode → MetaId → Flt1648 → PowProof} (sane : Sane n)
    (here : n.global.store.chains.lookup n.global.store.tip.id = some n.global.store.tip)
    (again : searchProof n.powMode n.global.store.tip.id n.global.store.tip.powDifficulty =
      n.global.store.tip.powProof)
    (ran : n.pow P searchProof = some n') :
    Confined engine serializer view P hash fuel emptyGoals validatePow n c n' ∧ Sane n' := by
  obtain ⟨store, updated, rfl⟩ := Option.map_eq_some_iff.1 ran
  obtain ⟨chains, tip⟩ := updateMetaEntry_some updated
  rw [again] at chains
  have same : store.chains = n.global.store.chains := chains.trans (insert_of_lookup here)
  refine confined_of_admits sane rfl rfl (.inl rfl) rfl
    ⟨tip, fun id e found => ?_, fun id e found absent => ?_, fun own => ?_⟩
  · rw [same]
    exact found
  · rw [same, absent] at found
    exact nomatch found
  · rw [same]
    exact own

theorem confined_put {e : StoredEntry} {db : DbName} {r : UInt64} {g : Global G} (sane : Sane n)
    (here : n.global.store.chains.lookup e.id = some e)
    (puts : PutsRange view P hash fuel n e db c) (put : Put n.global e db r g) :
    Confined engine serializer view P hash fuel emptyGoals validatePow n c { n with global := g } ∧
      Sane { n with global := g } where
  left :=
    { funds := rfl
      powMode := rfl
      state := .inl ⟨put.tip, put.interp⟩
      added := fun id e' found absent => by
        have found : g.store.chains.lookup id = some e' := found
        rw [put.chains, lookup_insert_ite] at found
        split_ifs at found with same
        · rw [same, here] at absent
          exact nomatch absent
        · exact nomatch absent.symm.trans found
      kept := fun id e₂ found => by
        by_cases same : id = e.id
        · obtain rfl : e = e₂ := Option.some.inj (here.symm.trans (same ▸ found))
          refine ⟨withDbRoot e r db, ?_, withDbRoot_toMetaEntry e r db, .inr fun db' => ?_⟩
          · dsimp only
            rw [put.chains, lookup_insert_ite, if_pos same]
          · by_cases at' : db' = db
            · exact .inr ⟨e, at' ▸ puts, .inl rfl⟩
            · refine .inl (.of_same ?_ (put.others db' at'))
              rw [dbRoot_withDbRoot, if_neg at']
        · refine ⟨e₂, ?_, rfl, .inr fun db' => ?_⟩
          · dsimp only
            rw [put.chains, lookup_insert_ite, if_neg same, found]
          · by_cases at' : db' = db
            · subst at'
              have root := put.root
              split_ifs at root with zero
              · refine .inl (.of_persists put.written fun known shared => root ?_)
                rwa [← shared]
              · by_cases shared : dbRoot e db' = dbRoot e₂ db'
                · exact .inr ⟨e, puts, .inr ⟨shared ▸ zero, shared⟩⟩
                · refine .inl (.of_persists put.written fun known taken => shared ?_)
                  rw [← root]
                  exact (UInt64.toNat_inj.1 taken).symm
            · exact .inl (.of_same rfl (put.others db' at')) }
  right := by
    refine ⟨fun db' => ?_, ?_⟩
    · by_cases at' : db' = db
      · rw [at']
        exact put.written.settled
      · rw [put.others db' at']
        exact sane.settled db'
    · have inserted := sane.own.insert (withDbRoot e r db)
      rw [show (withDbRoot e r db).id = e.id from
        congrArg (·.id) (withDbRoot_toMetaEntry e r db)] at inserted
      exact put.chains ▸ inserted

theorem confined_advanced {g : Global G} (sane : Sane n)
    (commits : Commits engine serializer P hash fuel emptyGoals validatePow n
      { n with global := g } c) (advanced : Advanced n.global g) :
    Confined engine serializer view P hash fuel emptyGoals validatePow n c { n with global := g } ∧
      Sane { n with global := g } where
  left :=
    { funds := rfl
      powMode := rfl
      state := .inr (.inr commits)
      added := fun id e' found absent => by
        by_cases here : id = g.store.tip.id
        · exact .inr ⟨commits, here⟩
        · exact nomatch absent.symm.trans ((advanced.others id here).symm.trans found)
      kept := fun id e found => by
        by_cases here : id = g.store.tip.id
        · obtain ⟨e', found', same⟩ := advanced.kept e (here ▸ found)
          exact ⟨e', here ▸ found', same, .inl ⟨commits, here⟩⟩
        · refine ⟨e, (advanced.others id here).trans found, rfl, .inr fun db => .inl ?_⟩
          exact .of_persists (advanced.persists db) fun _ => not_false }
  right := ⟨fun db => (advanced.persists db).settled, advanced.own sane.own⟩

theorem putTarget_some {s : MetaStore} (own : OwnIds s.chains) {id : IdArg} {name : Option DbName}
    {e : StoredEntry} {db : DbName} (target : putTarget s id name = some (some e, db)) :
    s.chains.lookup e.id = some e := by
  obtain ⟨id', -, target⟩ := Option.bind_eq_some_iff.1 target
  obtain ⟨db', -, target⟩ := Option.bind_eq_some_iff.1 target
  have found := congrArg Prod.fst (Option.some.inj target)
  rwa [own id' e found]

theorem validateMeta_same {m : MetaArg} (ran : n.validateMeta hash m = some n') : n' = n := by
  unfold SelfNode.validateMeta at ran
  split at ran
  case h_1 => exact (Option.some.inj ran).symm
  case h_2 =>
    split at ran
    case h_1 => exact (Option.some.inj ran).symm
    case h_2 =>
      split_ifs at ran
      · obtain ⟨_, -, made⟩ := Option.map_eq_some_iff.1 ran
        exact made.symm
      · exact (Option.some.inj ran).symm

theorem dbPut4_same {id : IdArg} {name : Option DbName} {key : Option UInt64} {data : Block T}
    (missing : putTarget n.global.store id name = none ∨ key = none)
    (ran : n.dbPut4 serializer P id name key data = some n') : n' = n := by
  unfold SelfNode.dbPut4 at ran
  split at ran
  case h_1 => exact nomatch ran
  case h_2 target => exact nomatch target ▸ missing
  case h_3 => exact (Option.some.inj ran).symm

theorem dbPut3_same {id : IdArg} {name : Option DbName} {leaf : Option Bytes}
    (missing : putTarget n.global.store id name = none ∨ leaf = none)
    (ran : n.dbPut3 P id name leaf = some n') : n' = n := by
  unfold SelfNode.dbPut3 at ran
  split at ran
  case h_1 => exact nomatch ran
  case h_2 target => exact nomatch target ▸ missing
  case h_3 => exact (Option.some.inj ran).symm

theorem confined_dbPut5 {id : IdArg} {name : Option DbName} {fromKey toKey : Option UInt64}
    {tree : T} (sane : Sane n)
    (meets : ∀ e db from' to' part, putTarget n.global.store id name = some (some e, db) →
      fromKey = some from' → toKey = some to' → buildPart view fuel tree = some (some part) →
        validateRoot P true part from' to' = true → RangeMeets hash n.global e db part)
    (ran : n.dbPut5 view P fuel id name fromKey toKey tree = some n') :
    Confined engine serializer view P hash fuel emptyGoals validatePow n
      (.dbPut5 id name fromKey toKey tree) n' ∧ Sane n' := by
  unfold SelfNode.dbPut5 at ran
  split at ran
  case h_1 => exact nomatch ran
  case h_2 e db from' to' target =>
    split at ran
    case h_1 => exact nomatch ran
    case h_2 =>
      rw [← Option.some.inj ran]
      exact confined_same sane
    case h_3 part built =>
      split_ifs at ran with valid
      · obtain ⟨g, put, rfl⟩ := Option.map_eq_some_iff.1 ran
        obtain ⟨right, atEnd⟩ := meets e db from' to' part target rfl rfl built valid
        obtain ⟨r, put⟩ := put_of_putUnder (fun _ => writes_updateRoot P part) (sane.settled db)
          atEnd put
        exact confined_put sane (putTarget_some sane.own target)
          ⟨from', to', part, target, rfl, rfl, built, valid, right⟩ put
      · rw [← Option.some.inj ran]
        exact confined_same sane
  case h_3 =>
    rw [← Option.some.inj ran]
    exact confined_same sane

theorem newBlk_left {m : MetaArg} {block : Block T} {reply : BlockImport.Reply} {g g' : Global G}
    {write : T → Bytes} {pow : MetaId → Flt1648 → PowProof → Bool}
    (ran : g.newBlk engine P hash fuel emptyGoals write pow m block = some (reply, g')) :
    g' = g ∨ ∃ entry, m.parse = .ok entry ∧ m.validate hash entry = some true ∧
      pow entry.id entry.powDifficulty entry.powProof = true ∧
        g.store.chains.lookup entry.id = none ∧
          (g.store.chains.lookup entry.previousId).isSome = true ∧
            g.importNew engine P hash fuel emptyGoals entry (block.buffer write) =
              some (reply, g') := by
  have unchanged {answer : BlockImport.Reply} (here : some (answer, g) = some (reply, g')) :
      g' = g := (congrArg Prod.snd (Option.some.inj here)).symm
  unfold Global.newBlk at ran
  split at ran
  case h_1 => exact .inl (unchanged ran)
  case h_2 entry parsed =>
    split at ran
    case h_1 => exact nomatch ran
    case h_2 => exact .inl (unchanged ran)
    case h_3 validated =>
      split_ifs at ran with weak known unknown
      · exact .inl (unchanged ran)
      · exact .inl (unchanged ran)
      · exact .inl (unchanged ran)
      · refine .inr ⟨entry, parsed, validated, ?_, ?_, ?_, ran⟩
        · simpa using weak
        · exact Option.not_isSome_iff_eq_none.1 known
        · exact Option.isSome_iff_ne_none.2 fun absent =>
            unknown (Option.isNone_iff_eq_none.2 absent)

theorem confined_newBlk {m : MetaArg} {block : Block T} (writing : CommitsByWriting engine P)
    (sane : Sane n)
    (meets : ∀ entry, m.parse = .ok entry → m.validate hash entry = some true →
      validatePow n.powMode entry.id entry.powDifficulty entry.powProof = true →
        n.global.store.chains.lookup entry.id = none →
          (n.global.store.chains.lookup entry.previousId).isSome = true →
            BlockMeets engine P hash fuel emptyGoals n.global entry (block.buffer serializer.write))
    {reply : BlockImport.Reply} {g : Global G}
    (ran : n.global.newBlk engine P hash fuel emptyGoals serializer.write (validatePow n.powMode) m
      block = some (reply, g)) :
    Confined engine serializer view P hash fuel emptyGoals validatePow n (.newBlk m block)
      { n with global := g } ∧ Sane { n with global := g } := by
  obtain rfl | ⟨entry, parsed, validated, pow, unknown, known, imported⟩ := newBlk_left ran
  · exact confined_same sane
  · obtain ⟨g', executed, atEnds⟩ | undone := meets entry parsed validated pow unknown known
    · obtain ⟨answer, executed', -⟩ := Global.importNew_some.1 imported
      obtain rfl : g' = g := congrArg Prod.snd (Option.some.inj (executed.symm.trans executed'))
      exact confined_advanced sane ⟨entry, parsed, validated, pow, executed⟩
        (advanced_executeCommit writing sane.settled atEnds executed)
    · obtain ⟨answer, g', imported', same⟩ := (Global.importNew_same_iff sane.own known).2 undone
      obtain rfl : g' = g := congrArg Prod.snd (Option.some.inj (imported'.symm.trans imported))
      refine confined_of_admits sane rfl rfl (.inl same.interp) same.dbs ?_
      dsimp only
      rw [same.store]
      exact .refl

variable (engine serializer) in
theorem newTx_global [DecidableEq H] (node : AcceptedTxs.SelfNode G T H) (t : T) :
    (AcceptedTxs.newTx engine.toEngine serializer node t).2.global =
      match engine.execute node.global (serializer.write t) with
      | (.yes, g) => engine.stop g
      | (.no, g) => engine.reset (engine.reset g)
      | (.throws, g) => engine.reset g
      | (.escapes, g) => g := by
  rcases executed : engine.execute node.global (serializer.write t) with ⟨_ | _ | _ | _, g⟩ <;>
    simp only [AcceptedTxs.newTx, executeGoal, executed, AcceptedTxs.SelfNode.global_addTx]

theorem confined_newTx [DecidableEq H] {t : T} (sane : Sane n)
    (meets : ∀ g, n.global.interp = some g →
      match engine.execute g (serializer.write t) with
      | (.yes, _) => True
      | (.no, g') => engine.reset (engine.reset g') = g
      | (.throws, g') => engine.reset g' = g
      | (.escapes, g') => g' = g) :
    Confined engine serializer view P hash fuel emptyGoals validatePow n (.newTx t)
      (n.newTx engine serializer t) ∧ Sane (n.newTx engine serializer t) := by
  unfold SelfNode.newTx
  cases interp : n.global.interp with
  | none => exact confined_same sane
  | some g =>
    dsimp only
    have meets := meets g interp
    have left := newTx_global engine serializer ⟨g, n.mempool, n.punished⟩ t
    generalize (AcceptedTxs.newTx engine.toEngine serializer ⟨g, n.mempool, n.punished⟩ t).2 =
      after at left
    refine confined_of_admits sane rfl rfl ?_ rfl .refl
    have undone (same : after.global = g) : some after.global = n.global.interp := by
      rw [same, interp]
    rcases executed : engine.execute g (serializer.write t) with ⟨_ | _ | _ | _, g'⟩
    · rw [executed] at left
      exact .inr ⟨rfl, g, g', interp, executed, congrArg some left⟩
    · rw [executed] at left meets
      exact .inl (undone (left.trans meets))
    · rw [executed] at left meets
      exact .inl (undone (left.trans meets))
    · rw [executed] at left meets
      exact .inl (undone (left.trans meets))

end Calls

section Runs

variable {G T H : Type} [DecidableEq H] {engine : GlobalEngine G}
  {serializer : Serializer T Bytes H} {view : T → Shape T} {P : TriedbParams}
  {hash : Bytes → MetaId} {fuel : ℕ} {emptyGoals : Bytes}
  {validatePow : PowMode → MetaId → Flt1648 → PowProof → Bool}
  {searchProof : PowMode → MetaId → Flt1648 → PowProof}
  {asRoot : Guarded → List T → SelfNode G T H → Option (SelfNode G T H)}

theorem confined_call {n n' : SelfNode G T H} {c : Call T} (writing : CommitsByWriting engine P)
    (sane : Sane n)
    (allowed : Allowed engine serializer view P hash fuel emptyGoals validatePow searchProof n c)
    (ran : n.call engine serializer view P hash fuel emptyGoals validatePow searchProof asRoot false
      c = some n') :
    Confined engine serializer view P hash fuel emptyGoals validatePow n c n' ∧ Sane n' := by
  have same (here : some n = some n') :
      Confined engine serializer view P hash fuel emptyGoals validatePow n c n' ∧ Sane n' := by
    rw [← Option.some.inj here]
    exact confined_same sane
  cases c with
  | aside b => exact same ran
  | guarded b args => exact same ran
  | initialFunds arg =>
    cases arg with
    | int v =>
      obtain rfl : v = n.funds.initial := allowed
      exact same ran
    | var => exact same ran
    | other => exact same ran
  | nolimit =>
    have kept := congrArg₂ (Funds.mk n.funds.initial) allowed.1 allowed.2
    have unchanged : n = { n with funds := ⟨n.funds.initial, 2 ^ 64 - 1, 2 ^ 64 - 1⟩ } :=
      congrArg (fun funds => { n with funds }) kept
    exact same ((congrArg some unchanged).trans ran)
  | dropGlobal =>
    obtain ⟨chains, tip, interp⟩ := allowed
    rw [← Option.some.inj ran]
    refine ⟨⟨rfl, rfl, .inl ⟨tip.symm, interp.symm⟩, fun id e found => (nomatch found),
      fun id e found => ?_⟩, sane_of_empty rfl fun db => by cases db <;> rfl⟩
    rw [chains] at found
    exact nomatch found
  | advance =>
    have none : n.global.interp = none := allowed
    refine same (Eq.trans ?_ ran)
    rw [SelfNode.call, none]
  | discard =>
    have kept : n.global.interp.map engine.discard = n.global.interp := allowed
    refine same (Eq.trans ?_ ran)
    rw [SelfNode.call, kept]
  | switch id =>
    refine same (Eq.trans ?_ ran)
    rw [SelfNode.call]
    split
    case h_1 => rfl
    case h_2 id' named =>
      cases found : n.global.store.chains.lookup id' with
      | none => rw [Global.setTip, found]
      | some e =>
        obtain ⟨rfl, interp⟩ := allowed id' _ named found
        simp only [Global.setTip, MetaStore.setTip, found, ← interp]
  | setupCommit now =>
    rw [← Option.some.inj ran]
    exact confined_of_admits sane rfl rfl (.inl rfl) rfl .refl
  | setupCommitTo settings =>
    have kept := setupCommitTo_same (settings.getD []) n.global
    rw [← Option.some.inj ran]
    refine confined_of_admits sane rfl rfl (.inl kept.interp) kept.dbs ?_
    dsimp only
    rw [kept.store]
    exact .refl
  | powMode arg =>
    cases arg with
    | var => exact same ran
    | mode m =>
      obtain rfl : m = n.powMode := allowed
      exact same ran
    | other => exact same ran
  | validateMeta m => exact same (congrArg some (validateMeta_same ran).symm)
  | readTree tree =>
    obtain ⟨_, -, made⟩ := Option.map_eq_some_iff.1 ran
    exact same (congrArg some made)
  | putMeta m =>
    obtain ⟨store, put, rfl⟩ := Option.map_eq_some_iff.1 ran
    exact confined_of_admits sane rfl rfl (.inl rfl) rfl (admits_putMeta put)
  | putMetas lst =>
    obtain ⟨store, put, rfl⟩ := Option.map_eq_some_iff.1 ran
    exact confined_of_admits sane rfl rfl (.inl rfl) rfl (admits_putMetas put)
  | dbPut5 id db fromKey toKey tree => exact confined_dbPut5 sane allowed ran
  | dbPut4 id db key data => exact same (congrArg some (dbPut4_same allowed ran).symm)
  | dbPut3 id db leaf => exact same (congrArg some (dbPut3_same allowed ran).symm)
  | newTx t =>
    rw [← Option.some.inj ran]
    exact confined_newTx sane allowed
  | pow => exact confined_pow sane allowed.1 allowed.2 ran
  | newBlk m block =>
    obtain ⟨⟨reply, g⟩, imported, rfl⟩ := Option.map_eq_some_iff.1 ran
    exact confined_newBlk writing sane allowed imported

/-- Runs of such calls are secure. -/
theorem secure_of_allMeet (writing : CommitsByWriting engine P) {n : SelfNode G T H}
    (sane : Sane n) {cs : List (Call T)}
    (meets : AllMeet engine serializer view P hash fuel emptyGoals validatePow searchProof asRoot
      false n cs) :
    Secure engine serializer view P hash fuel emptyGoals validatePow searchProof asRoot false n
      cs := by
  induction cs generalizing n with
  | nil => trivial
  | cons c cs ih =>
    obtain ⟨allowed, n', ran, later⟩ := meets
    obtain ⟨confined, sane'⟩ := confined_call writing sane allowed ran
    exact ⟨n', ran, confined, ih sane' later⟩

end Runs

section Examples

/-- Nothing can be read back from what this writes. -/
def mute : Serializer ℕ Bytes ℕ where
  write _ := []
  read _ := none
  hashSmall _ := 0

/-- A node with the default funds that has no entries yet -/
def newNode : SelfNode Unit ℕ ℕ where
  funds := ⟨10000, 10000, 100⟩
  powMode := .normal
  global :=
    { store := {}
      dbs := ⟨{}, fun _ => {}⟩
      interp := some ()
      commitVersion := 1
      commitHeight := 0
      commitTime := 0
      commitGoals := [] }
  mempool := ⟨[], [], 0⟩
  punished := 0

theorem newNode_sane : Sane newNode := sane_of_empty rfl fun db => by cases db <;> rfl

theorem failing_commitsByWriting : CommitsByWriting failing plainParams := by
  rintro g e D g' D' ⟨⟩
  exact ⟨rfl, fun db => ⟨[], nofun, rfl⟩⟩

/-- Any session may set the funds that a new session starts with. -/
theorem initial_funds_unchecked :
    ¬ Secure failing mute (fun _ => .other) plainParams (fun _ => 7) 0 [] (fun _ _ _ _ => true)
      (fun _ _ _ => 0) (fun _ _ n => some n) false newNode [.initialFunds (.int 1)] := by
  rintro ⟨n', ⟨⟩, confined, -⟩
  exact absurd (congrArg Funds.initial confined.funds) (by decide)

/-- A query of a session that asks for funds, is refused to set them, and fails to send a
transaction -/
theorem secure_query :
    Secure failing mute (fun _ => .other) plainParams (fun _ => 7) 0 [] (fun _ _ _ _ => true)
      (fun _ _ _ => 0) (fun _ _ n => some n) false newNode
      [.initialFunds .var, .guarded .new_funds_per_second_1 [1], .newTx 0] := by
  refine secure_of_allMeet failing_commitsByWriting newNode_sane
    ⟨trivial, _, rfl, trivial, _, rfl, ?_, _, rfl, trivial⟩
  rintro _ ⟨⟩
  rfl

end Examples

end Epilog.Node.SessionRights
