/- Module: Epilog/Global/MetaValidation
   source: src/src/global/blockchain.cpp (advance, update_meta_id), src/src/global/global.cpp
     (db_get_meta, db_parse_meta, db_validate_meta), src/src/db/triedb.hpp (node_hash)
   digest: What the id of a meta entry commits to, and which entries validate elsewhere. -/

import Epilog.Global.MetaCodec
import Epilog.Db.Iterator
import Epilog.Lib.Fuel

set_option autoImplicit false

namespace Epilog.Global.MetaValidation

open Epilog.Common.Bits Epilog.Lib.Fuel Epilog.Lib.Run Epilog.Db.Store
  Epilog.Db.Iterator Epilog.Global.Chains Epilog.Global.MetaTerms Epilog.Global.MetaCodec

section Databases

/-- The state databases -/
inductive StateDb
  | heap
  | closure
  | symbols
  | program
  deriving DecidableEq

/-- In the order in which they are hashed -/
def stateDbs : List StateDb := [.heap, .closure, .symbols, .program]

structure Databases where
  blocks : Triedb
  state : StateDb → Triedb

/-- The local root of an entry in a state database -/
def rootId (e : StoredEntry) : StateDb → RootId
  | .heap => e.rootIdHeap.toNat
  | .closure => e.rootIdClosure.toNat
  | .symbols => e.rootIdSymbols.toNat
  | .program => e.rootIdProgram.toNat

def getRootHash (s : Triedb) (atRoot : RootId) : Option Bytes := do
  let root ← s.roots.lookup atRoot
  match s.nodes root.ptr with
  | some (.branch br) => some br.hash
  | _ => none

def numEntries (s : Triedb) (atRoot : RootId) : Option UInt64 :=
  if atRoot = 0 then some 0 else (s.roots.lookup atRoot).map (·.numEntries)

namespace Databases

variable (D : Databases) (fuel : ℕ) (e : StoredEntry)

/-- The hash of the block that led to the entry; the option is the failed assertion. -/
def blockHash : Option Bytes := do
  let block ← find D.blocks fuel e.rootIdBlocks.toNat e.height.toUInt64
  block.map (·.hash)

def stateHash (db : StateDb) : Option Bytes := getRootHash (D.state db) (rootId e db)

def stateNum (db : StateDb) : Option UInt64 := numEntries (D.state db) (rootId e db)

end Databases

end Databases

section Identifier

/-- The bytes that are hashed -/
def metaBytes (e : MetaEntry) (hashes : List Bytes) (counts : List UInt64) : Bytes :=
  beBytes 32 e.previousId.val ++ (hashes.flatten ++
    (counts.flatMap (fun n => writeUint64 n.toBitVec) ++ (writeUint64 e.version.toBitVec ++
      (writeUint32 e.height.toBitVec ++ (timeToBytes e.timestamp ++ writeFlt e.powDifficulty)))))

/-- `advance`, with the roots that the databases hand out -/
def advance (tip roots : StoredEntry) (version time : UInt64) : StoredEntry :=
  { tip with
    id := 0
    previousId := tip.id
    version := version
    timestamp := time
    height := if tip.rootIdMeta = 0 then 0 else tip.height + 1
    rootIdMeta := roots.rootIdMeta
    rootIdBlocks := roots.rootIdBlocks
    rootIdHeap := roots.rootIdHeap
    rootIdClosure := roots.rootIdClosure
    rootIdSymbols := roots.rootIdSymbols
    rootIdProgram := roots.rootIdProgram }

/-- The hash of the block that got us here; there is none before the first entry. -/
def tipBlockHash (D : Databases) (fuel : ℕ) (tip : StoredEntry) : Option Bytes :=
  if tip.height ≠ 0 then D.blockHash fuel tip else some []

/-- What `update_meta_id` hashes -/
def committedBytes (D : Databases) (fuel : ℕ) (tip : StoredEntry) : Option Bytes := do
  let block ← tipBlockHash D fuel tip
  let hashes ← stateDbs.mapM (D.stateHash tip)
  let counts ← stateDbs.mapM (D.stateNum tip)
  return metaBytes tip.toMetaEntry (block :: hashes) counts

/-- `update_meta_id`; `hash` gives the first 32 bytes of the BLAKE2b digest. -/
def updateMetaId (hash : Bytes → MetaId) (D : Databases) (fuel : ℕ) (tip : StoredEntry) :
    Option StoredEntry := do
  let bytes ← committedBytes D fuel tip
  return { tip with id := hash bytes }

theorem beBytes_injective {n v w : ℕ} (small : v < 256 ^ n) (small' : w < 256 ^ n)
    (same : beBytes n v = beBytes n w) : v = w := by
  have values := congrArg beNat same
  rwa [beNat_beBytes, beNat_beBytes, Nat.mod_eq_of_lt small, Nat.mod_eq_of_lt small'] at values

theorem writeUint64_injective {v w : UInt64}
    (same : writeUint64 v.toBitVec = writeUint64 w.toBitVec) : v = w := by
  have values := congrArg readUint64 same
  rw [readUint64_writeUint64, readUint64_writeUint64] at values
  exact UInt64.toBitVec_inj.1 values

theorem writeUint32_injective {v w : UInt32}
    (same : writeUint32 v.toBitVec = writeUint32 w.toBitVec) : v = w := by
  have read (u : BitVec 32) : readUint32 (writeUint32 u) = u := by
    have whole := readUint32_append u []
    rwa [List.append_nil] at whole
  have values := congrArg readUint32 same
  rw [read, read] at values
  exact UInt32.toBitVec_inj.1 values

theorem length_counts (counts : List UInt64) :
    (counts.flatMap fun n => writeUint64 n.toBitVec).length = 8 * counts.length := by
  induction counts with
  | nil => rfl
  | cons n counts ih =>
    rw [List.flatMap_cons, List.length_append, ih, length_writeUint64, List.length_cons]
    omega

theorem counts_injective {counts counts' : List UInt64} (len : counts.length = counts'.length)
    (same : (counts.flatMap fun n => writeUint64 n.toBitVec) =
      counts'.flatMap fun n => writeUint64 n.toBitVec) : counts = counts' := by
  induction counts generalizing counts' with
  | nil => rw [List.length_eq_zero_iff.1 len.symm]
  | cons n counts ih =>
    cases counts' with
    | nil => exact nomatch len
    | cons m counts' =>
      rw [List.flatMap_cons, List.flatMap_cons] at same
      obtain ⟨first, rest⟩ := List.append_inj same rfl
      rw [writeUint64_injective first, ih (Nat.succ.inj len) rest]

theorem length_writeFlt (d : Flt1648) : (writeFlt d).length = 8 := by
  rw [writeFlt, List.length_append, length_beBytes, List.length_drop, length_beBytes]

theorem metaBytes_eq_iff {e e' : MetaEntry} {hashes hashes' : List Bytes}
    {counts counts' : List UInt64} (len : counts.length = counts'.length) :
    metaBytes e hashes counts = metaBytes e' hashes' counts' ↔
      e.previousId = e'.previousId ∧ hashes.flatten = hashes'.flatten ∧ counts = counts' ∧
        e.version = e'.version ∧ e.height = e'.height ∧ e.timestamp = e'.timestamp ∧
          writeFlt e.powDifficulty = writeFlt e'.powDifficulty := by
  constructor
  · intro same
    have rest (e : MetaEntry) (counts : List UInt64) :
        (counts.flatMap (fun n => writeUint64 n.toBitVec) ++ (writeUint64 e.version.toBitVec ++
          (writeUint32 e.height.toBitVec ++ (timeToBytes e.timestamp ++
            writeFlt e.powDifficulty)))).length = 8 * counts.length + 28 := by
      simp only [List.length_append, length_counts, length_writeUint64, length_writeUint32,
        length_writeFlt, timeToBytes, length_beBytes]
    obtain ⟨previous, same⟩ := List.append_inj same (by rw [length_beBytes, length_beBytes])
    obtain ⟨hashed, same⟩ := List.append_inj' same (by rw [rest, rest, len])
    obtain ⟨counted, same⟩ := List.append_inj same (by rw [length_counts, length_counts, len])
    obtain ⟨version, same⟩ := List.append_inj same rfl
    obtain ⟨height, same⟩ := List.append_inj same rfl
    obtain ⟨time, difficulty⟩ := List.append_inj same (by
      rw [timeToBytes, timeToBytes, length_beBytes, length_beBytes])
    have width : 256 ^ 32 = 2 ^ 256 := (pow_mul 2 8 32).symm
    have inside (id : MetaId) : id.val < 256 ^ 32 := by
      rw [width]
      exact id.isLt
    have times (t : UInt64) : t.toNat < 256 ^ 8 := t.toNat_lt
    exact ⟨Fin.ext (beBytes_injective (inside _) (inside _) previous), hashed,
      counts_injective len counted, writeUint64_injective version, writeUint32_injective height,
      UInt64.toNat_inj.1 (beBytes_injective (times _) (times _) time), difficulty⟩
  · rintro ⟨previous, hashed, rfl, version, height, time, difficulty⟩
    rw [metaBytes, metaBytes, previous, hashed, version, height, time, difficulty]

end Identifier

section Validation

inductive DbName
  | block
  | state (db : StateDb)
  deriving DecidableEq

def dbNames : List DbName := .block :: stateDbs.map .state

/-- An element of the list of a meta term; a `db/3` may name no database. -/
inductive Item
  | prop (p : Property)
  | db (name : Option DbName) (num hash : Arg)

/-- What `db_parse_meta` makes of it -/
def Item.property : Item → Property
  | .prop p => p
  | .db .. => .unrecognized

def newBig (bytes : Bytes) : Arg := .big (8 * bytes.length) (beNat bytes)

def dbGetMeta (D : Databases) (fuel : ℕ) (more : Bool) (e : StoredEntry) : Option (List Item) := do
  let props := (properties e.toMetaEntry).map .prop
  if more then
    let block ← D.blockHash fuel e
    let dbs ← stateDbs.mapM fun db => do
      let hash ← D.stateHash e db
      let num ← D.stateNum e db
      return Item.db (some (.state db)) (intCell num.toNat) (newBig hash)
    return props ++ .db (some .block) (intCell e.height.toNat) (newBig block) :: dbs
  else return props

def parseItems (items : List Item) : Except Failure (Option MetaEntry) :=
  dbParseMeta (.meta1 (items.map Item.property))

/-- `node_hash`: setting an empty hash frees the bytes and keeps the size. -/
inductive NodeHash
  | data (bytes : Bytes)
  | dangling (size : ℕ)

/-- `set_hash`; bytes are not copied to where there is nothing. -/
def NodeHash.setHash (bytes : Bytes) : NodeHash → Option NodeHash
  | .data old => if bytes = [] ∧ old ≠ [] then some (.dangling old.length) else some (.data bytes)
  | .dangling size =>
      if bytes = [] then some (.dangling size)
      else if bytes.length = size then none
      else some (.data bytes)

inductive Stop
  | rejected
  /-- Reading or writing behind a null pointer -/
  | undefined
  deriving DecidableEq

def NodeHash.bytes : NodeHash → Except Stop Bytes
  | .data bytes => .ok bytes
  | .dangling _ => .error .undefined

/-- The hashes and numbers read so far -/
abbrev Scan := DbName → NodeHash × UInt64

def scanDb (scan : Scan) (name : DbName) : Arg → Arg → Except Stop Scan
  | .int num, .big numBits value =>
      let size := (numBits + 7) / 8
      if size > 128 then .error .rejected
      else
        match (scan name).1.setHash (beBytes size value) with
        | none => .error .undefined
        | some hash => .ok (Function.update scan name (hash, UInt64.ofInt num))
  | _, _ => .error .rejected

def scanItem (scan : Scan) : Item → Except Stop Scan
  | .db (some name) num hash => scanDb scan name num hash
  | _ => .ok scan

def scanItems (items : List Item) : Except Stop Scan :=
  items.foldlM scanItem fun _ => (.data [], 0)

/-- What `db_validate_meta` hashes -/
def validatedBytes (items : List Item) (entry : MetaEntry) : Except Stop Bytes := do
  let scan ← scanItems items
  let hashes ← dbNames.mapM fun db => (scan db).1.bytes
  return metaBytes entry hashes (stateDbs.map fun db => (scan (.state db)).2)

/-- `db_validate_meta`; the option is undefined behaviour. -/
def dbValidateMeta (hash : Bytes → MetaId) (items : List Item) (entry : MetaEntry) : Option Bool :=
  match validatedBytes items entry with
  | .error .rejected => some false
  | .error .undefined => none
  | .ok bytes => some (hash bytes = entry.id)

end Validation

section Difficulty

theorem beBytes_congr {n v w : ℕ} (same : v % 256 ^ n = w % 256 ^ n) :
    beBytes n v = beBytes n w := by
  induction n generalizing v w with
  | zero => rfl
  | succ n ih =>
    rw [pow_succ'] at same
    rw [beBytes, beBytes, ih (v := v / 256) (w := w / 256)]
    · have low : v % 256 = w % 256 := by
        have parts := congrArg (· % 256) same
        rwa [Nat.mod_mul_right_mod, Nat.mod_mul_right_mod] at parts
      have byte : UInt8.ofNat v = UInt8.ofNat w := by
        apply UInt8.toNat_inj.1
        rw [UInt8.toNat_ofNat', UInt8.toNat_ofNat']
        exact low
      rw [byte]
    · have parts := congrArg (· / 256) same
      rwa [Nat.mod_mul_right_div_self, Nat.mod_mul_right_div_self] at parts

theorem beBytes_add (k n v : ℕ) : beBytes (k + n) v = beBytes k (v / 256 ^ n) ++ beBytes n v := by
  induction n generalizing v with
  | zero => rw [beBytes, List.append_nil, pow_zero, Nat.div_one]; rfl
  | succ n ih =>
    rw [← Nat.add_assoc, beBytes, beBytes, ih, Nat.div_div_eq_div_mul, ← pow_succ',
      List.append_assoc]

theorem writeFlt_eq (d : Flt1648) :
    writeFlt d = beBytes 2 d.exponent.toUInt16.toNat ++ beBytes 6 d.mantissa.toNat := by
  have split : beBytes 8 d.mantissa.toNat =
      beBytes 2 (d.mantissa.toNat / 256 ^ 6) ++ beBytes 6 d.mantissa.toNat := beBytes_add 2 6 _
  rw [writeFlt, split, List.drop_left' (length_beBytes _ _)]

theorem writeFlt_eq_iff (d d' : Flt1648) : writeFlt d = writeFlt d' ↔
    d.exponent = d'.exponent ∧ d.mantissa.toNat % 2 ^ 48 = d'.mantissa.toNat % 2 ^ 48 := by
  have width : 256 ^ 6 = 2 ^ 48 := (pow_mul 2 8 6).symm
  rw [writeFlt_eq, writeFlt_eq]
  constructor
  · intro same
    obtain ⟨high, low⟩ := List.append_inj same (by rw [length_beBytes, length_beBytes])
    have values := congrArg beNat low
    rw [beNat_beBytes, beNat_beBytes, width] at values
    have small (e : Int16) : e.toUInt16.toNat < 256 ^ 2 := e.toUInt16.toNat_lt
    have exponents := UInt16.toNat_inj.1 (beBytes_injective (small _) (small _) high)
    have back := congrArg UInt16.toInt16 exponents
    rw [Int16.toInt16_toUInt16, Int16.toInt16_toUInt16] at back
    exact ⟨back, values⟩
  · rintro ⟨exponent, mantissa⟩
    have low : beBytes 6 d.mantissa.toNat = beBytes 6 d'.mantissa.toNat := by
      apply beBytes_congr
      rw [width]
      exact mantissa
    rw [exponent, low]

/-- A difficulty that can be sent: at least 1/2, with the highest bit of the mantissa at 47 in the
61 bits of an integer cell. -/
def Sendable (d : Flt1648) : Prop :=
  0 ≤ d.exponent ∧ 2 ^ 47 ≤ d.mantissa.toNat % 2 ^ 61 ∧ d.mantissa.toNat % 2 ^ 61 < 2 ^ 48

theorem sendable_of_read {entry entry' : MetaEntry} {d : Flt1648}
    (read : parseProperty entry
      (.diff (intCell d.exponent.toInt) (intCell d.mantissa.toNat)) = .ok entry')
    (same : writeFlt entry'.powDifficulty = writeFlt d) : Sendable d := by
  obtain ⟨exp, atExp, read⟩ := bind_ok read
  obtain ⟨m, atM, read⟩ := bind_ok read
  have low := d.exponent.le_toInt
  have high := d.exponent.toInt_lt
  have expEq : (exp : ℤ) = d.exponent.toInt := by
    rw [getNumber_intCell_eq (number_read atExp)]
    apply Int.bmod_eq_of_le <;> omega
  have mEq := getNumber_intCell_eq (number_read atM)
  have mMod : m = d.mantissa.toNat % 2 ^ 61 := by
    have upper := Int.bmod_lt (x := (d.mantissa.toNat : ℤ)) (m := 2 ^ 61) (by decide)
    have cases := Int.bmod_emod (x := (d.mantissa.toNat : ℤ)) (m := 2 ^ 61)
    omega
  have mSmall : m < 2 ^ 61 := by omega
  have back : Int16.ofNat exp = d.exponent := by
    rw [← Int16.ofInt_eq_ofNat, expEq, Int16.ofInt_toInt]
  have toNat : (UInt64.ofNat m).toNat = m := UInt64.toNat_ofNat_of_lt' (by rw [UInt64.size]; omega)
  have built : entry'.powDifficulty = flt1648 d.exponent (UInt64.ofNat m) := by
    rw [← Except.ok.inj read, back]
  rw [built] at same
  have kept := ((writeFlt_eq_iff _ _).1 same).1
  have normal := normal_of_posMsb (v := UInt64.ofNat m) (by omega) (posMsb_of_kept kept)
  rw [toNat, mMod] at normal
  refine ⟨?_, normal⟩
  rw [Int16.le_iff_toInt_le]
  change (0 : ℤ) ≤ _
  omega

theorem read_of_sendable (entry : MetaEntry) {d : Flt1648} (sendable : Sendable d) :
    ∃ d', parseProperty entry (.diff (intCell d.exponent.toInt) (intCell d.mantissa.toNat)) =
      .ok { entry with powDifficulty := d' } ∧ writeFlt d' = writeFlt d := by
  obtain ⟨nonneg, low, high⟩ := sendable
  have toNat : (UInt64.ofNat (d.mantissa.toNat % 2 ^ 61)).toNat = d.mantissa.toNat % 2 ^ 61 :=
    UInt64.toNat_ofNat_of_lt' (by rw [UInt64.size]; omega)
  have cell : intCell d.mantissa.toNat = intCell (d.mantissa.toNat % 2 ^ 61 : ℕ) := by
    rw [intCell, intCell, Int.natCast_mod]
    exact congrArg Arg.int (Int.emod_bmod (d.mantissa.toNat : ℤ) (2 ^ 61)).symm
  refine ⟨{ d with mantissa := UInt64.ofNat (d.mantissa.toNat % 2 ^ 61) }, ?_, ?_⟩
  · have normal :
        Flt1648.Normal { d with mantissa := UInt64.ofNat (d.mantissa.toNat % 2 ^ 61) } := by
      rw [Flt1648.Normal, toNat]
      exact ⟨low, high⟩
    have nonneg' : 0 ≤
        { d with mantissa := UInt64.ofNat (d.mantissa.toNat % 2 ^ 61) : Flt1648 }.exponent := nonneg
    have read := parse_diff_normal entry nonneg' normal
    rw [toNat] at read
    rw [cell]
    exact read
  · refine (writeFlt_eq_iff _ _).2 ⟨rfl, ?_⟩
    rw [toNat]
    omega

end Difficulty

section Accepted

variable {hash : Bytes → MetaId} {D D' : Databases} {fuel : ℕ} {more : Bool} {e entry : MetaEntry}
  {items : List Item}

theorem mapM_stateDbs {β : Type} {f : StateDb → Option β} {l : List β} :
    stateDbs.mapM f = some l ↔ ∃ g, (∀ db, f db = some (g db)) ∧ l = stateDbs.map g := by
  rw [mapM_eq_some]
  constructor
  · intro all
    obtain ⟨heap, _, atHeap, all₁, rfl⟩ := List.forall₂_cons_left_iff.1 all
    obtain ⟨closure, _, atClosure, all₂, rfl⟩ := List.forall₂_cons_left_iff.1 all₁
    obtain ⟨symbols, _, atSymbols, all₃, rfl⟩ := List.forall₂_cons_left_iff.1 all₂
    obtain ⟨program, _, atProgram, all₄, rfl⟩ := List.forall₂_cons_left_iff.1 all₃
    obtain rfl := List.forall₂_nil_left_iff.1 all₄
    refine ⟨fun
      | .heap => heap
      | .closure => closure
      | .symbols => symbols
      | .program => program, fun db => ?_, rfl⟩
    cases db with
    | heap => exact atHeap
    | closure => exact atClosure
    | symbols => exact atSymbols
    | program => exact atProgram
  · rintro ⟨g, found, rfl⟩
    rw [List.forall₂_map_right_iff, List.forall₂_same]
    exact fun db _ => found db

theorem beBytes_beNat (bytes : Bytes) : beBytes bytes.length (beNat bytes) = bytes := by
  induction bytes using List.reverseRecOn with
  | nil => rfl
  | append_singleton bytes b ih =>
    have small := b.toNat_lt
    have high : (256 * beNat bytes + b.toNat) / 256 = beNat bytes := by omega
    have low : UInt8.ofNat (256 * beNat bytes + b.toNat) = b := by
      apply UInt8.toNat_inj.1
      rw [UInt8.toNat_ofNat']
      omega
    rw [List.length_append, List.length_singleton, beBytes, beNat_append, high, low, ih]

/-- A database of a term that is sent -/
def sentItem (f : DbName → ℤ × Bytes) (db : DbName) : Item :=
  .db (some db) (intCell (f db).1) (newBig (f db).2)

/-- The count and the hash of a database as they are read -/
def readCount (v : ℤ) : UInt64 := UInt64.ofInt (v.bmod (2 ^ 61))

theorem scan_sent {scan : Scan} {f : DbName → ℤ × Bytes} {db : DbName}
    (fresh : (scan db).1 = .data []) : scanItem scan (sentItem f db) =
      if (f db).2.length ≤ 128 then
        .ok (Function.update scan db (.data (f db).2, readCount (f db).1))
      else .error .rejected := by
  have size : (8 * (f db).2.length + 7) / 8 = (f db).2.length := by omega
  change scanDb scan db (intCell (f db).1) (newBig (f db).2) = _
  unfold scanDb intCell newBig
  dsimp only
  rw [size, fresh, beBytes_beNat]
  by_cases short : (f db).2.length ≤ 128
  · rw [if_neg (not_lt.2 short), if_pos short, NodeHash.setHash, if_neg fun both => both.2 rfl]
    rfl
  · rw [if_pos (not_le.1 short), if_neg short]

theorem scan_sents {f : DbName → ℤ × Bytes} {dbs : List DbName} (nodup : dbs.Nodup)
    {scan scan' : Scan} (fresh : ∀ db ∈ dbs, (scan db).1 = .data []) :
    (dbs.map (sentItem f)).foldlM scanItem scan = .ok scan' ↔
      (∀ db ∈ dbs, (f db).2.length ≤ 128) ∧ scan' = fun db =>
        if db ∈ dbs then (.data (f db).2, readCount (f db).1) else scan db := by
  induction dbs generalizing scan with
  | nil =>
    rw [List.map_nil, List.foldlM_nil]
    refine ⟨fun done => ⟨nofun, ?_⟩, fun ⟨_, same⟩ => ?_⟩
    · exact (Except.ok.inj done).symm
    · exact congrArg Except.ok same.symm
  | cons first dbs ih =>
    obtain ⟨absent, nodup⟩ := List.nodup_cons.1 nodup
    rw [List.map_cons, List.foldlM_cons, scan_sent (fresh first List.mem_cons_self)]
    by_cases short : (f first).2.length ≤ 128
    · rw [if_pos short]
      change (dbs.map (sentItem f)).foldlM scanItem (Function.update scan first _) = _ ↔ _
      rw [ih nodup]
      · have rest : (∀ db ∈ first :: dbs, (f db).2.length ≤ 128) ↔
            ∀ db ∈ dbs, (f db).2.length ≤ 128 := by
          rw [List.forall_mem_cons]
          exact and_iff_right short
        have scans : (fun db => if db ∈ dbs then (NodeHash.data (f db).2, readCount (f db).1)
            else Function.update scan first (.data (f first).2, readCount (f first).1) db) =
            fun db =>
              if db ∈ first :: dbs then (.data (f db).2, readCount (f db).1) else scan db := by
          funext db
          by_cases here : db = first
          · rw [here, if_neg absent, Function.update_self, if_pos List.mem_cons_self]
          · rw [Function.update_of_ne here]
            simp only [List.mem_cons, here, false_or]
        rw [rest, scans]
      · intro db later
        rw [Function.update_of_ne]
        · exact fresh db (List.mem_cons_of_mem _ later)
        · rintro rfl
          exact absent later
    · rw [if_neg short]
      exact ⟨nofun, fun ⟨all, _⟩ => absurd (all first List.mem_cons_self) short⟩

/-- What another node reads of the term of an entry -/
structure ReadFrom (e entry : MetaEntry) : Prop where
  id : entry.id = e.id
  previousId : entry.previousId = e.previousId
  version : entry.version = 1
  height : entry.height = e.height
  timestamp : entry.timestamp = UInt64.ofNat (e.timestamp.toNat / 1000000)

theorem dbParseMeta_ok : dbParseMeta (metaTerm e) = .ok (some entry) ↔
    (properties e).foldlM parseProperty newEntry = .ok entry := by
  rw [metaTerm, dbParseMeta]
  cases (properties e).foldlM parseProperty newEntry with
  | error failure => constructor <;> rintro ⟨⟩
  | ok entry' =>
    refine ⟨fun same => ?_, fun same => ?_⟩
    · rw [Option.some.inj (Except.ok.inj same)]
    · rw [Except.ok.inj same]
      rfl

theorem readFrom_of_parsed (read : dbParseMeta (metaTerm e) = .ok (some entry)) :
    ReadFrom e entry ∧
      (writeFlt entry.powDifficulty = writeFlt e.powDifficulty → Sendable e.powDifficulty) := by
  rw [dbParseMeta_ok, parse_properties] at read
  obtain ⟨entry₁, atVersion, read⟩ := bind_ok read
  obtain ⟨entry₂, atDiff, read⟩ := bind_ok read
  obtain rfl := version_read atVersion
  have sendable := sendable_of_read atDiff
  obtain ⟨exp, _, atDiff⟩ := bind_ok atDiff
  obtain ⟨m, _, atDiff⟩ := bind_ok atDiff
  obtain rfl := Except.ok.inj atDiff
  obtain rfl := Except.ok.inj read
  exact ⟨⟨rfl, rfl, rfl, rfl, rfl⟩, sendable⟩

theorem parsed_of_sendable (version : e.version = 1) (sendable : Sendable e.powDifficulty) :
    ∃ entry, dbParseMeta (metaTerm e) = .ok (some entry) ∧ ReadFrom e entry ∧
      writeFlt entry.powDifficulty = writeFlt e.powDifficulty := by
  have one (entry : MetaEntry) : parseProperty entry (.version (intCell (1 : UInt64).toNat)) =
      .ok { entry with version := 1 } := by
    change parseProperty entry (.version (intCell (1 : ℕ))) = _
    rw [parseProperty, getNumber_intCell (by omega) (by rw [UINT64_MAX]; omega)]
    rfl
  have read (entry : MetaEntry) := read_of_sendable entry sendable
  obtain ⟨d, read, same⟩ := read
    { newEntry with
      id := e.id
      previousId := e.previousId
      version := 1
      height := e.height
      timestamp := UInt64.ofNat (e.timestamp.toNat / 1000000) }
  refine ⟨{ e with
    version := 1
    timestamp := UInt64.ofNat (e.timestamp.toNat / 1000000)
    powDifficulty := d }, ?_, ⟨rfl, rfl, rfl, rfl, rfl⟩, same⟩
  rw [dbParseMeta_ok, parse_properties, version, one, ok_bind]
  dsimp only at read ⊢
  rw [read]
  rfl

theorem scan_props (props : List Property) (scan : Scan) :
    (props.map Item.prop).foldlM scanItem scan = .ok scan := by
  induction props with
  | nil => rfl
  | cons p props ih => exact ih

theorem mapM_bytes {dbs : List DbName} {scan : Scan} {g : DbName → Bytes}
    (read : ∀ db ∈ dbs, (scan db).1 = .data (g db)) :
    (dbs.mapM fun db => (scan db).1.bytes) = .ok (dbs.map g) := by
  induction dbs with
  | nil => rfl
  | cons db dbs ih =>
    rw [List.mapM_cons, read db List.mem_cons_self,
      ih fun other later => read other (List.mem_cons_of_mem _ later)]
    rfl

/-- What a node sends about the databases of an entry -/
def sent (e : MetaEntry) (block : Bytes) (hashes : StateDb → Bytes) (nums : StateDb → UInt64) :
    DbName → ℤ × Bytes
  | .block => (e.height.toNat, block)
  | .state db => ((nums db).toNat, hashes db)

/-- The readings of the databases that are sent, where they are asked for -/
inductive Sends (D : Databases) (fuel : ℕ) (e : StoredEntry) : Bool → List Item → Prop
  | less : Sends D fuel e false ((properties e.toMetaEntry).map .prop)
  | more {block : Bytes} {hashes : StateDb → Bytes} {nums : StateDb → UInt64}
      (atBlock : D.blockHash fuel e = some block)
      (atHash : ∀ db, D.stateHash e db = some (hashes db))
      (atNum : ∀ db, D.stateNum e db = some (nums db)) :
      Sends D fuel e true ((properties e.toMetaEntry).map .prop ++
        dbNames.map (sentItem (sent e.toMetaEntry block hashes nums)))

theorem sends {e : StoredEntry} (built : dbGetMeta D fuel more e = some items) :
    Sends D fuel e more items := by
  cases more with
  | false =>
    obtain rfl := Option.some.inj built
    exact .less
  | true =>
    obtain ⟨block, atBlock, built⟩ := Option.bind_eq_some_iff.1 built
    obtain ⟨l, atStates, built⟩ := Option.bind_eq_some_iff.1 built
    obtain ⟨g, found, rfl⟩ := mapM_stateDbs.1 atStates
    have each (db : StateDb) : ∃ hash num, D.stateHash e db = some hash ∧
        D.stateNum e db = some num ∧
        g db = .db (some (.state db)) (intCell num.toNat) (newBig hash) := by
      obtain ⟨hash, atHash, rest⟩ := Option.bind_eq_some_iff.1 (found db)
      obtain ⟨num, atNum, rest⟩ := Option.bind_eq_some_iff.1 rest
      exact ⟨hash, num, atHash, atNum, (Option.some.inj rest).symm⟩
    choose hashes nums atHash atNum same using each
    have items' : items = (properties e.toMetaEntry).map .prop ++
        dbNames.map (sentItem (sent e.toMetaEntry block hashes nums)) := by
      rw [← Option.some.inj built, dbNames, List.map_cons, List.map_map]
      congr 2
      exact List.map_congr_left fun db _ => same db
    rw [items']
    exact .more atBlock atHash atNum

theorem built_of_sends {e : StoredEntry} (sends : Sends D fuel e more items) :
    dbGetMeta D fuel more e = some items := by
  cases sends with
  | less => rfl
  | more atBlock atHash atNum =>
    rename_i block hashes nums
    have states : (stateDbs.mapM fun db => do
        let hash ← D.stateHash e db
        let num ← D.stateNum e db
        return Item.db (some (.state db)) (intCell num.toNat) (newBig hash)) =
          some (stateDbs.map fun db =>
            sentItem (sent e.toMetaEntry block hashes nums) (.state db)) := by
      refine mapM_stateDbs.2 ⟨_, fun db => ?_, rfl⟩
      rw [atHash, atNum]
      rfl
    rw [dbGetMeta, if_pos rfl, atBlock, Option.bind_eq_bind, Option.bind_some, states]
    rfl

theorem parseItems_sent {e : StoredEntry} (built : Sends D fuel e more items) :
    parseItems items = dbParseMeta (metaTerm e.toMetaEntry) := by
  have props : ((properties e.toMetaEntry).map Item.prop).map Item.property =
      properties e.toMetaEntry := by
    rw [List.map_map]
    exact List.map_id _
  rw [← dbParseMeta_with more]
  cases built with
  | less => rw [parseItems, props, metaTermWith, if_neg Bool.false_ne_true, List.append_nil]
  | more =>
    rw [parseItems, List.map_append, props, metaTermWith, if_pos rfl]
    rfl

theorem validatedBytes_less (props : List Property) (entry : MetaEntry) :
    validatedBytes (props.map .prop) entry =
      .ok (metaBytes entry (dbNames.map fun _ => []) (stateDbs.map fun _ => 0)) := by
  rw [validatedBytes, scanItems, scan_props]
  rfl

theorem validatedBytes_more (props : List Property) (entry : MetaEntry) (f : DbName → ℤ × Bytes)
    (bytes : Bytes) :
    validatedBytes (props.map .prop ++ dbNames.map (sentItem f)) entry = .ok bytes ↔
      (∀ db, (f db).2.length ≤ 128) ∧ bytes = metaBytes entry (dbNames.map fun db => (f db).2)
        (stateDbs.map fun db => readCount (f (.state db)).1) := by
  have all (db : DbName) : db ∈ dbNames := by
    cases db with
    | block => exact List.mem_cons_self
    | state db => cases db <;> decide
  have nodup : dbNames.Nodup := by decide
  have scanned (scan : Scan) :
      scanItems (props.map .prop ++ dbNames.map (sentItem f)) = .ok scan ↔
        (∀ db, (f db).2.length ≤ 128) ∧ scan = fun db => (.data (f db).2, readCount (f db).1) := by
    rw [scanItems, List.foldlM_append, scan_props]
    change (dbNames.map (sentItem f)).foldlM scanItem _ = _ ↔ _
    rw [scan_sents nodup fun _ _ => rfl]
    simp only [all, true_implies, if_true]
  have ends : validatedBytes (props.map .prop ++ dbNames.map (sentItem f)) entry = .ok bytes ↔
      ∃ scan, scanItems (props.map .prop ++ dbNames.map (sentItem f)) = .ok scan ∧
        (do
          let hashes ← dbNames.mapM fun db => (scan db).1.bytes
          return metaBytes entry hashes (stateDbs.map fun db => (scan (.state db)).2)) =
            .ok bytes := by
    constructor
    · exact bind_ok
    · rintro ⟨scan, first, rest⟩
      rw [validatedBytes, first]
      exact rest
  have read : (dbNames.mapM fun db =>
      ((fun db => (.data (f db).2, readCount (f db).1) : Scan) db).1.bytes) =
        .ok (dbNames.map fun db => (f db).2) := mapM_bytes fun _ _ => rfl
  rw [ends]
  constructor
  · rintro ⟨scan, first, rest⟩
    obtain ⟨sizes, rfl⟩ := (scanned scan).1 first
    obtain ⟨hashes, done, built⟩ := bind_ok rest
    rw [read] at done
    rw [← Except.ok.inj done] at built
    exact ⟨sizes, (Except.ok.inj built).symm⟩
  · rintro ⟨sizes, same⟩
    refine ⟨_, (scanned _).2 ⟨sizes, rfl⟩, ?_⟩
    rw [read, same]
    rfl

theorem validate_iff : dbValidateMeta hash items entry = some true ↔
    ∃ bytes, validatedBytes items entry = .ok bytes ∧ hash bytes = entry.id := by
  unfold dbValidateMeta
  cases validatedBytes items entry with
  | error stop =>
    refine ⟨fun accepted => ?_, nofun⟩
    cases stop with
    | rejected => exact nomatch Option.some.inj accepted
    | undefined => exact nomatch accepted
  | ok bytes =>
    constructor
    · exact fun accepted => ⟨bytes, rfl, of_decide_eq_true (Option.some.inj accepted)⟩
    · rintro ⟨_, same, accepted⟩
      rw [← Except.ok.inj same] at accepted
      exact congrArg some (decide_eq_true accepted)

theorem readCount_eq_iff (n : UInt64) :
    readCount n.toNat = n ↔ n.toNat < 2 ^ 60 ∨ 2 ^ 64 - 2 ^ 60 ≤ n.toNat := by
  have small := n.toNat_lt
  have low := Int.le_bmod (x := (n.toNat : ℤ)) (m := 2 ^ 61) (by decide)
  have high := Int.bmod_lt (x := (n.toNat : ℤ)) (m := 2 ^ 61) (by decide)
  have rest := Int.bmod_emod (x := (n.toNat : ℤ)) (m := 2 ^ 61)
  rw [readCount, ← UInt64.toNat_inj]
  generalize (n.toNat : ℤ).bmod (2 ^ 61) = v at low high rest
  have value : (UInt64.ofInt v).toNat = (v % 2 ^ 64).toNat := by
    rw [UInt64.ofInt, UInt64.toNat_ofNat']
    omega
  rw [value]
  omega

/-- What the id of an entry commits to -/
structure Commits (D : Databases) (fuel : ℕ) (e : StoredEntry) (block : Bytes)
    (hashes : StateDb → Bytes) (nums : StateDb → UInt64) : Prop where
  later : e.height ≠ 0 → D.blockHash fuel e = some block
  first : e.height = 0 → block = []
  hash : ∀ db, D.stateHash e db = some (hashes db)
  num : ∀ db, D.stateNum e db = some (nums db)

theorem tipBlockHash_later {tip : StoredEntry} (later : tip.height ≠ 0) :
    tipBlockHash D fuel tip = D.blockHash fuel tip := if_pos later

theorem tipBlockHash_first {tip : StoredEntry} (first : tip.height = 0) :
    tipBlockHash D fuel tip = some [] := if_neg (not_not.2 first)

theorem committedBytes_some {tip : StoredEntry} {bytes : Bytes}
    (built : committedBytes D fuel tip = some bytes) : ∃ block hashes nums,
      Commits D fuel tip block hashes nums ∧
        bytes = metaBytes tip.toMetaEntry (block :: stateDbs.map hashes) (stateDbs.map nums) := by
  obtain ⟨block, atBlock, built⟩ := Option.bind_eq_some_iff.1 built
  obtain ⟨l, atHash, built⟩ := Option.bind_eq_some_iff.1 built
  obtain ⟨l', atNum, built⟩ := Option.bind_eq_some_iff.1 built
  obtain ⟨hashes, hashed, rfl⟩ := mapM_stateDbs.1 atHash
  obtain ⟨nums, counted, rfl⟩ := mapM_stateDbs.1 atNum
  have same := Option.some.inj built
  refine ⟨block, hashes, nums, ⟨fun later => ?_, fun first => ?_, hashed, counted⟩, same.symm⟩
  · rw [← tipBlockHash_later later]
    exact atBlock
  · rw [tipBlockHash_first first] at atBlock
    exact (Option.some.inj atBlock).symm

/-- The databases still hold what the entry stands for. -/
structure SameState (D D' : Databases) (fuel : ℕ) (e : StoredEntry) : Prop where
  block : D'.blockHash fuel e = D.blockHash fuel e
  hash : ∀ db, D'.stateHash e db = D.stateHash e db
  num : ∀ db, D'.stateNum e db = D.stateNum e db

/-- What the databases have to hold so that a term with `more` of them says what the id commits to,
or one without: there is no block that the first entry commits to, and without `more` there is
nothing. -/
def StateSent (D : Databases) (fuel : ℕ) (e : StoredEntry) : Bool → Prop
  | true => (e.height = 0 → D.blockHash fuel e = some []) ∧
      (∀ block, D.blockHash fuel e = some block → block.length ≤ 128) ∧
      ∀ db, (∀ hash, D.stateHash e db = some hash → hash.length ≤ 128) ∧
        ∀ n, D.stateNum e db = some n → n.toNat < 2 ^ 60 ∨ 2 ^ 64 - 2 ^ 60 ≤ n.toNat
  | false => (e.height ≠ 0 → D.blockHash fuel e = some []) ∧
      ∀ db, D.stateHash e db = some [] ∧ D.stateNum e db = some 0

theorem mem_stateDbs (db : StateDb) : db ∈ stateDbs := by cases db <;> decide

theorem stateDbs_map_inj {β : Type} {f g : StateDb → β} :
    stateDbs.map f = stateDbs.map g ↔ ∀ db, f db = g db := by
  rw [List.map_inj_left]
  exact ⟨fun same db => same db (mem_stateDbs db), fun same db _ => same db⟩

theorem read_time_iff (t : UInt64) : t = UInt64.ofNat (t.toNat / 1000000) ↔ t = 0 := by
  have small := t.toNat_lt
  rw [← UInt64.toNat_inj, ← UInt64.toNat_inj, UInt64.toNat_ofNat']
  change _ ↔ t.toNat = 0
  omega

theorem metaBytes_read_iff {hashes hashes' : List Bytes} {counts counts' : List UInt64}
    (read : ReadFrom e entry) (len : counts.length = counts'.length) :
    metaBytes e hashes counts = metaBytes entry hashes' counts' ↔
      (e.version = 1 ∧ e.timestamp = 0 ∧ writeFlt entry.powDifficulty = writeFlt e.powDifficulty) ∧
        hashes.flatten = hashes'.flatten ∧ counts = counts' := by
  rw [metaBytes_eq_iff len, read.previousId, read.version, read.height, read.timestamp,
    read_time_iff, eq_comm (a := writeFlt e.powDifficulty)]
  tauto

theorem stateSent_iff {e : StoredEntry} {block : Bytes} {hashes : StateDb → Bytes}
    {nums : StateDb → UInt64} (commits : Commits D fuel e block hashes nums)
    (kept : SameState D D' fuel e) (sends : Sends D' fuel e more items)
    (read : ReadFrom e.toMetaEntry entry) :
    validatedBytes items entry =
        .ok (metaBytes e.toMetaEntry (block :: stateDbs.map hashes) (stateDbs.map nums)) ↔
      (e.version = 1 ∧ e.timestamp = 0 ∧ writeFlt entry.powDifficulty = writeFlt e.powDifficulty) ∧
        StateSent D fuel e more := by
  cases sends with
  | less =>
    have hashed : (block :: stateDbs.map hashes).flatten =
        (dbNames.map fun _ => ([] : Bytes)).flatten ↔ block = [] ∧ ∀ db, hashes db = [] := by
      have nothing : (dbNames.map fun _ => ([] : Bytes)).flatten = [] := rfl
      rw [nothing, List.flatten_eq_nil_iff, List.forall_mem_cons, List.forall_mem_map]
      simp only [mem_stateDbs, true_implies]
    have sent : StateSent D fuel e false ↔
        (block = [] ∧ ∀ db, hashes db = []) ∧ ∀ db, nums db = 0 := by
      have noBlock : (e.height ≠ 0 → D.blockHash fuel e = some []) ↔ block = [] := by
        by_cases first : e.height = 0
        · exact ⟨fun _ => commits.first first, fun _ later => absurd first later⟩
        · rw [commits.later first, Option.some.injEq]
          exact ⟨fun empty => empty first, fun empty _ => empty⟩
      rw [StateSent, noBlock]
      simp only [commits.hash, commits.num, Option.some.injEq, forall_and]
      exact and_assoc.symm
    rw [validatedBytes_less, eq_comm, Except.ok.injEq, metaBytes_read_iff read
      (by rw [List.length_map, List.length_map]), hashed, stateDbs_map_inj, sent]
  | more atBlock atHash atNum =>
    rename_i block' hashes' nums'
    obtain rfl : hashes' = hashes := funext fun db => Option.some.inj
      ((atHash db).symm.trans ((kept.hash db).trans (commits.hash db)))
    obtain rfl : nums' = nums := funext fun db => Option.some.inj
      ((atNum db).symm.trans ((kept.num db).trans (commits.num db)))
    have there : D.blockHash fuel e = some block' := kept.block.symm.trans atBlock
    have hashed : (block :: stateDbs.map hashes').flatten =
        (dbNames.map fun db => (sent e.toMetaEntry block' hashes' nums' db).2).flatten ↔
          block = block' := by
      change block ++ (stateDbs.map hashes').flatten = block' ++ (stateDbs.map hashes').flatten ↔ _
      exact List.append_left_inj _
    have sameBlock : (e.height = 0 → D.blockHash fuel e = some []) ↔ block = block' := by
      rw [there, Option.some.injEq]
      by_cases first : e.height = 0
      · rw [commits.first first]
        exact ⟨fun empty => (empty first).symm, fun empty _ => empty.symm⟩
      · have same := Option.some.inj ((commits.later first).symm.trans there)
        exact ⟨fun _ => same, fun _ at0 => absurd at0 first⟩
    have sizes : (∀ db, (sent e.toMetaEntry block' hashes' nums' db).2.length ≤ 128) ↔
        block'.length ≤ 128 ∧ ∀ db, (hashes' db).length ≤ 128 :=
      ⟨fun all => ⟨all .block, fun db => all (.state db)⟩, fun ⟨atBlock, atState⟩ db =>
        match db with
        | .block => atBlock
        | .state db => atState db⟩
    have counts (db : StateDb) :
        nums' db = readCount (sent e.toMetaEntry block' hashes' nums' (.state db)).1 ↔
          (nums' db).toNat < 2 ^ 60 ∨ 2 ^ 64 - 2 ^ 60 ≤ (nums' db).toNat :=
      eq_comm.trans (readCount_eq_iff _)
    rw [validatedBytes_more, metaBytes_read_iff read (by rw [List.length_map, List.length_map]),
      hashed, stateDbs_map_inj, StateSent, sameBlock, sizes]
    simp only [counts, there, commits.hash, commits.num, Option.some.injEq, forall_eq', forall_and]
    tauto

/-- No two different strings that are hashed here and there have one digest. -/
def NoCollision (hash : Bytes → MetaId) (here there : Set Bytes) : Prop :=
  ∀ b ∈ here, ∀ b' ∈ there, hash b = hash b' → b = b'

/-- The strings that another node hashes for a term -/
def hashedFor (items : List Item) : Set Bytes :=
  { b | ∃ entry, parseItems items = .ok (some entry) ∧ validatedBytes items entry = .ok b }

/-- The strings that other nodes hash for the term of an entry -/
def hashedElsewhere (D : Databases) (fuel : ℕ) (more : Bool) (e : StoredEntry) : Set Bytes :=
  { b | ∃ items, dbGetMeta D fuel more e = some items ∧ b ∈ hashedFor items }

/-- The term of an entry validates on another node. -/
def ValidElsewhere (hash : Bytes → MetaId) (D : Databases) (fuel : ℕ) (more : Bool)
    (e : StoredEntry) : Prop :=
  ∃ items entry, dbGetMeta D fuel more e = some items ∧ parseItems items = .ok (some entry) ∧
    dbValidateMeta hash items entry = some true

/-- The entries that validate elsewhere -/
structure Acceptable (D : Databases) (fuel : ℕ) (more : Bool) (e : StoredEntry) : Prop where
  version : e.version = 1
  timestamp : e.timestamp = 0
  difficulty : Sendable e.powDifficulty
  state : StateSent D fuel e more

theorem sends_of_commits {e : StoredEntry} {block : Bytes} {hashes : StateDb → Bytes}
    {nums : StateDb → UInt64} (commits : Commits D fuel e block hashes nums)
    (kept : SameState D D' fuel e) (state : StateSent D fuel e more) :
    ∃ items, Sends D' fuel e more items := by
  cases more with
  | false => exact ⟨_, .less⟩
  | true =>
    obtain ⟨first, _⟩ := state
    have there : ∃ block', D'.blockHash fuel e = some block' := by
      rw [kept.block]
      by_cases genesis : e.height = 0
      · exact ⟨[], first genesis⟩
      · exact ⟨block, commits.later genesis⟩
    obtain ⟨block', atBlock⟩ := there
    exact ⟨_, .more atBlock (fun db => (kept.hash db).trans (commits.hash db))
      fun db => (kept.num db).trans (commits.num db)⟩

theorem validElsewhere_iff {tip e : StoredEntry} (created : updateMetaId hash D fuel tip = some e)
    (kept : SameState D D' fuel e)
    (noCollision : NoCollision hash { b | committedBytes D fuel tip = some b }
      (hashedElsewhere D' fuel more e)) :
    ValidElsewhere hash D' fuel more e ↔ Acceptable D fuel more e := by
  obtain ⟨bytes, committed, made⟩ := Option.bind_eq_some_iff.1 created
  have same := Option.some.inj made
  obtain ⟨block, hashes, nums, commits, bytesEq⟩ := committedBytes_some committed
  have commits' : Commits D fuel e block hashes nums := by
    rw [← same]
    exact ⟨commits.later, commits.first, commits.hash, commits.num⟩
  have bytesEq' :
      bytes = metaBytes e.toMetaEntry (block :: stateDbs.map hashes) (stateDbs.map nums) := by
    rw [bytesEq, ← same]
    rfl
  have idEq : e.id = hash bytes := by rw [← same]
  constructor
  · rintro ⟨items, entry, built, read, accepted⟩
    have sends := sends built
    have read' := (parseItems_sent sends).symm.trans read
    obtain ⟨from', sendable⟩ := readFrom_of_parsed read'
    obtain ⟨bytes', validated, idAt⟩ := validate_iff.1 accepted
    have noChange : bytes = bytes' := noCollision bytes committed bytes'
      ⟨items, built, entry, read, validated⟩ (idEq.symm.trans (from'.id.symm.trans idAt.symm))
    rw [← noChange, bytesEq'] at validated
    obtain ⟨⟨version, time, flt⟩, state⟩ := (stateSent_iff commits' kept sends from').1 validated
    exact ⟨version, time, sendable flt, state⟩
  · rintro ⟨version, time, sendable, state⟩
    obtain ⟨items, sends⟩ := sends_of_commits commits' kept state
    obtain ⟨entry, read, from', flt⟩ := parsed_of_sendable version sendable
    have validated := (stateSent_iff commits' kept sends from').2 ⟨⟨version, time, flt⟩, state⟩
    refine ⟨items, entry, built_of_sends sends, (parseItems_sent sends).trans read,
      validate_iff.2 ⟨_, validated, ?_⟩⟩
    rw [from'.id, idEq, bytesEq']

end Accepted

section Unambiguous

variable {hash : Bytes → MetaId} {items items' : List Item} {entry entry' : MetaEntry}

/-- The block hash and the root hashes of a term -/
def hashesIn (items : List Item) : Except Stop (List Bytes) := do
  let scan ← scanItems items
  dbNames.mapM fun db => (scan db).1.bytes

/-- The entry counts of a term -/
def countsIn (items : List Item) : Except Stop (List UInt64) := do
  let scan ← scanItems items
  return stateDbs.map fun db => (scan (.state db)).2

/-- Two terms say the same of all that an id commits to. -/
structure Agree (items items' : List Item) (entry entry' : MetaEntry) : Prop where
  previousId : entry.previousId = entry'.previousId
  version : entry.version = entry'.version
  height : entry.height = entry'.height
  timestamp : entry.timestamp = entry'.timestamp
  powDifficulty : entry.powDifficulty = entry'.powDifficulty
  hashes : hashesIn items = hashesIn items'
  counts : countsIn items = countsIn items'

theorem validatedBytes_ok {bytes : Bytes} (validated : validatedBytes items entry = .ok bytes) :
    ∃ hashes counts, hashesIn items = .ok hashes ∧ countsIn items = .ok counts ∧
      counts.length = 4 ∧ bytes = metaBytes entry hashes counts := by
  obtain ⟨scan, scanned, validated⟩ := bind_ok validated
  obtain ⟨hashes, read, validated⟩ := bind_ok validated
  have made := Except.ok.inj validated
  refine ⟨hashes, stateDbs.map fun db => (scan (.state db)).2, ?_, ?_, rfl, made.symm⟩
  · rw [hashesIn, scanned]
    exact read
  · rw [countsIn, scanned]
    rfl

theorem agree_iff (read : parseItems items = .ok (some entry))
    (accepted : dbValidateMeta hash items entry = some true)
    (read' : parseItems items' = .ok (some entry'))
    (accepted' : dbValidateMeta hash items' entry' = some true) (sameId : entry.id = entry'.id)
    (noCollision : NoCollision hash (hashedFor items) (hashedFor items')) :
    Agree items items' entry entry' ↔
      (hashesIn items).map (List.map List.length) = (hashesIn items').map (List.map List.length) ∧
        entry.powDifficulty.mantissa.toNat / 2 ^ 48 =
          entry'.powDifficulty.mantissa.toNat / 2 ^ 48 := by
  constructor
  · intro agree
    rw [agree.hashes, agree.powDifficulty]
    exact ⟨rfl, rfl⟩
  · rintro ⟨cut, high⟩
    obtain ⟨bytes, validated, idAt⟩ := validate_iff.1 accepted
    obtain ⟨bytes', validated', idAt'⟩ := validate_iff.1 accepted'
    have same : bytes = bytes' := noCollision bytes ⟨entry, read, validated⟩ bytes'
      ⟨entry', read', validated'⟩ (idAt.trans (sameId.trans idAt'.symm))
    obtain ⟨hashes, counts, hashed, counted, four, bytesEq⟩ := validatedBytes_ok validated
    obtain ⟨hashes', counts', hashed', counted', four', bytesEq'⟩ := validatedBytes_ok validated'
    obtain ⟨previous, together, countsEq, version, height, time, flt⟩ :=
      (metaBytes_eq_iff (four.trans four'.symm)).1 (bytesEq.symm.trans (same.trans bytesEq'))
    obtain ⟨exponent, low⟩ := (writeFlt_eq_iff _ _).1 flt
    have hashesEq : hashes = hashes' := by
      rw [hashed, hashed'] at cut
      exact List.eq_iff_flatten_eq.2 ⟨together, Except.ok.inj cut⟩
    have mantissa : entry.powDifficulty.mantissa = entry'.powDifficulty.mantissa := by
      apply UInt64.toNat_inj.1
      omega
    refine ⟨previous, version, height, time, ?_, ?_, ?_⟩
    · exact congrArg₂ Flt1648.mk exponent mantissa
    · rw [hashed, hashed', hashesEq]
    · rw [counted, counted', countsEq]

end Unambiguous

section Commitment

variable (hash : Bytes → MetaId)

/-- For the entries that `advance` and `update_meta_id` create, and for the terms that validate:
the time is sent in seconds and read in microseconds, only the version 1 is read, the difficulty has
to fit its cells, and the hash of the genesis block is checked but not hashed. -/
theorem meta_id_commits_iff :
    (∀ (D D' : Databases) (fuel : ℕ) (tip roots : StoredEntry) (version time : UInt64) (more : Bool)
      (e : StoredEntry), updateMetaId hash D fuel (advance tip roots version time) = some e →
      SameState D D' fuel e →
      NoCollision hash { b | committedBytes D fuel (advance tip roots version time) = some b }
        (hashedElsewhere D' fuel more e) →
      (ValidElsewhere hash D' fuel more e ↔
        version = 1 ∧ time = 0 ∧ Sendable tip.powDifficulty ∧
          StateSent D fuel (advance tip roots version time) more)) ∧
    ∀ (items items' : List Item) (entry entry' : MetaEntry),
      parseItems items = .ok (some entry) → dbValidateMeta hash items entry = some true →
      parseItems items' = .ok (some entry') → dbValidateMeta hash items' entry' = some true →
      entry.id = entry'.id → NoCollision hash (hashedFor items) (hashedFor items') →
      (Agree items items' entry entry' ↔
        (hashesIn items).map (List.map List.length) = (hashesIn items').map (List.map List.length) ∧
          entry.powDifficulty.mantissa.toNat / 2 ^ 48 =
            entry'.powDifficulty.mantissa.toNat / 2 ^ 48) := by
  refine ⟨?_, ?_⟩
  · intro D D' fuel tip roots version time more e created kept noCollision
    rw [validElsewhere_iff created kept noCollision]
    obtain ⟨bytes, _, made⟩ := Option.bind_eq_some_iff.1 created
    have same := Option.some.inj made
    rw [← same]
    constructor
    · rintro ⟨isVersion, isTime, sendable, state⟩
      refine ⟨isVersion, isTime, sendable, ?_⟩
      cases more with
      | false => exact state
      | true => exact state
    · rintro ⟨isVersion, isTime, sendable, state⟩
      refine ⟨isVersion, isTime, sendable, ?_⟩
      cases more with
      | false => exact state
      | true => exact state
  · intro items items' entry entry' read accepted read' accepted' sameId noCollision
    exact agree_iff read accepted read' accepted' sameId noCollision

/-- A database of one leaf under the key 1 -/
def oneLeaf : Triedb :=
  { nodes := fun p =>
      if p = 1 then
        some (.branch { depth := 1, mask := 2, leaf := 2, num := 1, ptr := [2], hash := [7] })
      else if p = 2 then some (.leaf { key := 1, customData := [], hash := [8] })
      else none
    roots := [(20, { id := 20, ptr := 1, numEntries := 1 })] }

/-- The hash of the bytes of one entry is 1, and that of all others 2. -/
def singleOut (D : Databases) (fuel : ℕ) (tip : StoredEntry) (bytes : Bytes) : MetaId :=
  if committedBytes D fuel tip = some bytes then 1 else 2

theorem singleOut_noCollision (D : Databases) (fuel : ℕ) (tip : StoredEntry) (there : Set Bytes) :
    NoCollision (singleOut D fuel tip) { b | committedBytes D fuel tip = some b } there := by
  intro b here b' _ same
  have one : singleOut D fuel tip b = 1 := if_pos here
  rw [one] at same
  by_cases here' : committedBytes D fuel tip = some b'
  · exact Option.some.inj (Eq.trans (Eq.symm here) here')
  · rw [singleOut, if_neg here'] at same
    exact absurd same (by decide)

/-- The second entry of a chain, which has a block and states of one leaf -/
def secondEntry (time : UInt64) : StoredEntry :=
  advance { emptyEntry with rootIdMeta := 20 }
    { emptyEntry with
      rootIdMeta := 56
      rootIdBlocks := 20
      rootIdHeap := 20
      rootIdClosure := 20
      rootIdSymbols := 20
      rootIdProgram := 20 } 1 time

def leafDatabases : Databases := { blocks := oneLeaf, state := fun _ => oneLeaf }

theorem singleOut_created {D : Databases} {fuel : ℕ} {tip : StoredEntry}
    (built : (committedBytes D fuel tip).isSome = true) :
    updateMetaId (singleOut D fuel tip) D fuel tip = some { tip with id := 1 } := by
  obtain ⟨bytes, committed⟩ := Option.isSome_iff_exists.1 built
  have one : singleOut D fuel tip bytes = 1 := if_pos committed
  rw [updateMetaId, committed, Option.bind_eq_bind, Option.bind_some, one]
  rfl

theorem sameState_refl (D : Databases) (fuel : ℕ) (e : StoredEntry) : SameState D D fuel e :=
  ⟨rfl, fun _ => rfl, fun _ => rfl⟩

/-- An entry of the epoch validates; one of the second after it does not. -/
theorem second_entry_commits :
    (ValidElsewhere (singleOut leafDatabases 5 (secondEntry 0)) leafDatabases 5 true
      { secondEntry 0 with id := 1 } ↔
        (1 : UInt64) = 1 ∧ (0 : UInt64) = 0 ∧ Sendable emptyEntry.powDifficulty ∧
          StateSent leafDatabases 5 (secondEntry 0) true) ∧
    ValidElsewhere (singleOut leafDatabases 5 (secondEntry 0)) leafDatabases 5 true
      { secondEntry 0 with id := 1 } := by
  have iff := (meta_id_commits_iff (singleOut leafDatabases 5 (secondEntry 0))).1 leafDatabases
    leafDatabases 5 _ _ 1 0 true _ (singleOut_created (by decide)) (sameState_refl _ _ _)
    (singleOut_noCollision _ _ _ _)
  refine ⟨iff, iff.2 ⟨rfl, rfl, ⟨by decide, by decide, by decide⟩, nofun, ?_, fun db => ⟨?_, ?_⟩⟩⟩
  · intro block atBlock
    obtain rfl : [8] = block := Option.some.inj atBlock
    decide
  · intro hash atHash
    obtain rfl : [7] = hash := by
      cases db <;> exact Option.some.inj atHash
    decide
  · intro n atNum
    obtain rfl : 1 = n := by
      cases db <;> exact Option.some.inj atNum
    exact .inl (by decide)

def oneHash (name : DbName) : List Item :=
  [.prop (.id (.big 256 1)), .db (some name) (.int 0) (.big 8 8)]

theorem oneHash_validated (name : DbName) :
    validatedBytes (oneHash name) { newEntry with id := 1 } =
      .ok (metaBytes { newEntry with id := 1 } [[8]] [0, 0, 0, 0]) := by
  have bytes (hashes : List Bytes) (flat : hashes.flatten = [8]) :
      metaBytes { newEntry with id := 1 } hashes [0, 0, 0, 0] =
        metaBytes { newEntry with id := 1 } [[8]] [0, 0, 0, 0] :=
    (metaBytes_eq_iff rfl).2 ⟨rfl, flat, rfl, rfl, rfl, rfl, rfl⟩
  cases name with
  | block => exact congrArg Except.ok (bytes [[8], [], [], [], []] rfl)
  | state db =>
    cases db with
    | heap => exact congrArg Except.ok (bytes [[], [8], [], [], []] rfl)
    | closure => exact congrArg Except.ok (bytes [[], [], [8], [], []] rfl)
    | symbols => exact congrArg Except.ok (bytes [[], [], [], [8], []] rfl)
    | program => exact congrArg Except.ok (bytes [[], [], [], [], [8]] rfl)

theorem oneHash_hashed {name : DbName} {b : Bytes} (hashed : b ∈ hashedFor (oneHash name)) :
    b = metaBytes { newEntry with id := 1 } [[8]] [0, 0, 0, 0] := by
  obtain ⟨entry, read, validated⟩ := hashed
  have parsed : parseItems (oneHash name) = .ok (some { newEntry with id := 1 }) := rfl
  rw [← Option.some.inj (Except.ok.inj (parsed.symm.trans read)), oneHash_validated] at validated
  exact (Except.ok.inj validated).symm

/-- An entry of the second after the epoch does not validate elsewhere, and of two terms of one id
one has the hash of a block and the other that of the heap. -/
theorem second_entry_not_committed :
    (∃ e, updateMetaId (singleOut leafDatabases 5 (secondEntry 1000000)) leafDatabases 5
        (secondEntry 1000000) = some e ∧
      NoCollision (singleOut leafDatabases 5 (secondEntry 1000000))
        { b | committedBytes leafDatabases 5 (secondEntry 1000000) = some b }
        (hashedElsewhere leafDatabases 5 true e) ∧
      ¬ ValidElsewhere (singleOut leafDatabases 5 (secondEntry 1000000)) leafDatabases 5 true e) ∧
    ∃ entry entry', parseItems (oneHash .block) = .ok (some entry) ∧
      dbValidateMeta (fun _ => 1) (oneHash .block) entry = some true ∧
      parseItems (oneHash (.state .heap)) = .ok (some entry') ∧
      dbValidateMeta (fun _ => 1) (oneHash (.state .heap)) entry' = some true ∧
      entry.id = entry'.id ∧
      NoCollision (fun _ => 1) (hashedFor (oneHash .block)) (hashedFor (oneHash (.state .heap))) ∧
      ¬ Agree (oneHash .block) (oneHash (.state .heap)) entry entry' := by
  refine ⟨⟨_, singleOut_created (by decide), singleOut_noCollision _ _ _ _, ?_⟩, ?_⟩
  · rw [validElsewhere_iff (singleOut_created (by decide)) (sameState_refl _ _ _)
      (singleOut_noCollision _ _ _ _)]
    exact fun acceptable => absurd acceptable.timestamp (by decide)
  · have accepted (name : DbName) : dbValidateMeta (fun _ => 1) (oneHash name)
        { newEntry with id := 1 } = some true := validate_iff.2 ⟨_, oneHash_validated name, rfl⟩
    refine ⟨{ newEntry with id := 1 }, { newEntry with id := 1 }, rfl, accepted _, rfl, accepted _,
      rfl, fun b here b' there _ => (oneHash_hashed here).trans (oneHash_hashed there).symm, ?_⟩
    intro agree
    have cut : hashesIn (oneHash .block) = .ok [[8], [], [], [], []] := rfl
    have cut' : hashesIn (oneHash (.state .heap)) = .ok [[], [8], [], [], []] := rfl
    have same := Except.ok.inj (cut.symm.trans (agree.hashes.trans cut'))
    exact absurd same (by decide)

end Commitment

end Epilog.Global.MetaValidation
