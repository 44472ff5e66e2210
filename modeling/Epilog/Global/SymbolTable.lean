/- Module: Epilog/Global/SymbolTable
   source: src/src/global/global.hpp (symbols), src/src/global/global_interpreter.cpp
   digest: Permitted runs keep the symbol table a bijection; a discard can break it. -/

import Epilog.Global.Symbols

set_option autoImplicit false

namespace Epilog.Global.SymbolTable

open Epilog.Common.Bits Epilog.Common.Term Epilog.Lib.FiniteMap Epilog.Global.Symbols

section Entries

theorem le_probeKey (name : Bytes) (i : ℕ) : 2 ^ 29 ≤ probeKey name i := by
  unfold probeKey
  rw [BitVec.toNat_or]
  exact Nat.right_le_or

def symbolEntry (id : ℕ) (name : Bytes) : Bytes :=
  writeUint32 (BitVec.ofNat 32 id) ++ (writeUint32 (BitVec.ofNat 32 name.length) ++ name)

variable {id : ℕ} {name : Bytes}

theorem symbolEntryToCustomData_ok (small : id < 2 ^ 29) (short : name.length < 256) :
    symbolEntryToCustomData id name = .ok (symbolEntry id name) := by
  rw [symbolEntryToCustomData, if_neg (by omega), if_neg (by unfold MAX_NAME_LENGTH; omega)]
  rfl

private theorem drop_four_symbolEntry (id : ℕ) (name : Bytes) : (symbolEntry id name).drop 4 =
    writeUint32 (BitVec.ofNat 32 name.length) ++ name := rfl

private theorem drop_eight_symbolEntry (id : ℕ) (name : Bytes) :
    (symbolEntry id name).drop 8 = name := rfl

private theorem strLen_symbolEntry (id : ℕ) (short : name.length < 256) :
    (readUint32 ((symbolEntry id name).drop 4)).toNat = name.length := by
  rw [drop_four_symbolEntry, readUint32_append, BitVec.toNat_ofNat]
  exact Nat.mod_eq_of_lt (by omega)

theorem length_symbolEntry (id : ℕ) (name : Bytes) :
    (symbolEntry id name).length = 8 + name.length := by
  simp only [symbolEntry, List.length_append, length_writeUint32]
  omega

theorem customDataToSymbolEntry_symbolEntry (small : id < 2 ^ 29) (short : name.length < 256) :
    customDataToSymbolEntry (symbolEntry id name) = .ok (id, name) := by
  unfold customDataToSymbolEntry
  simp only [strLen_symbolEntry id short, drop_eight_symbolEntry, List.take_length,
    MAX_NAME_LENGTH, short, if_true]
  rw [symbolEntry, readUint32_append, BitVec.toNat_ofNat, Nat.mod_eq_of_lt (by omega)]

end Entries

section Table

/-- The database holds exactly the names of the list, each under its position and under one of
its probe keys, behind probe keys taken by other names. -/
structure Table (db : SymbolsDb) (names : List Bytes) : Prop where
  distinct : names.Nodup
  short : ∀ name ∈ names, name.length < 256
  bounded : names.length ≤ 2 ^ 29
  byId : ∀ id < 2 ^ 29, db.lookup id = (names[id]?).map (symbolEntry id)
  byName : ∀ id name, names[id]? = some name → ∃ i < 10,
    db.lookup (probeKey name i) = some (symbolEntry id name) ∧
    ∀ j < i, ∃ leaf, db.lookup (probeKey name j) = some leaf ∧ leaf ≠ symbolEntry id name
  entries : ∀ key leaf, db.lookup key = some leaf → ∃ id name, names[id]? = some name ∧
    leaf = symbolEntry id name
  count : db.keys.card = 2 * names.length

namespace Table

variable {db : SymbolsDb} {names : List Bytes}

theorem empty : Table ∅ [] where
  distinct := List.nodup_nil
  short _ among := nomatch among
  bounded := by simp
  byId _ _ := by simp
  byName _ _ impossible := by simp at impossible
  entries _ _ impossible := by simp at impossible
  count := by simp

theorem id_lt (table : Table db names) {id : ℕ} {name : Bytes} (named : names[id]? = some name) :
    id < 2 ^ 29 := by
  have inside := (List.getElem?_eq_some_iff.1 named).1
  have bounded := table.bounded
  omega

theorem read (table : Table db names) {id : ℕ} {name : Bytes} (named : names[id]? = some name) :
    customDataToSymbolEntry (symbolEntry id name) = .ok (id, name) :=
  customDataToSymbolEntry_symbolEntry (table.id_lt named)
    (table.short name (List.mem_of_getElem? named))

theorem id_unique (table : Table db names) {id id' : ℕ} {name : Bytes}
    (named : names[id]? = some name) (named' : names[id']? = some name) : id = id' := by
  obtain ⟨inside, here⟩ := List.getElem?_eq_some_iff.1 named
  obtain ⟨inside', here'⟩ := List.getElem?_eq_some_iff.1 named'
  exact (table.distinct.getElem_inj_iff).1 (here.trans here'.symm)

theorem numSymbols (table : Table db names) : dbNumSymbols db = names.length := by
  rw [dbNumSymbols, table.count]
  omega

theorem getSymbolName (table : Table db names) {id : ℕ} (small : id < 2 ^ 29) :
    dbGetSymbolName db id = .ok (names[id]?.getD []) := by
  rw [dbGetSymbolName, table.byId id small]
  rcases named : names[id]? with _ | name
  · rfl
  · simp only [Option.map_some, table.read named]
    exact if_pos rfl

theorem getSymbolName_hashKey (table : Table db names) {key : ℕ} (large : 2 ^ 29 ≤ key) :
    dbGetSymbolName db key = .ok [] ∨ dbGetSymbolName db key = .error .assertion := by
  rcases found : db.lookup key with _ | leaf
  · left
    rw [dbGetSymbolName, found]
  · right
    obtain ⟨id, name, named, rfl⟩ := table.entries key leaf found
    have small := table.id_lt named
    rw [dbGetSymbolName, found]
    simp only [table.read named]
    exact if_neg (by omega)

private theorem getSymbolIndexFrom_stored (table : Table db names) {id i : ℕ} {name : Bytes}
    (named : names[id]? = some name) (last : i < 10)
    (here : db.lookup (probeKey name i) = some (symbolEntry id name))
    (before : ∀ j < i, ∃ leaf, db.lookup (probeKey name j) = some leaf ∧
      leaf ≠ symbolEntry id name) {k m : ℕ} (reach : k ≤ i) (upto : i < k + m) :
    getSymbolIndexFrom db name (List.range' k m) = .ok id := by
  induction m generalizing k with
  | zero => omega
  | succ m ih =>
    rw [List.range'_succ, getSymbolIndexFrom]
    by_cases now : k = i
    · subst now
      rw [here]
      simp only [table.read named]
      exact if_pos rfl
    · obtain ⟨leaf, found, other⟩ := before k (by omega)
      obtain ⟨id', name', named', rfl⟩ := table.entries _ _ found
      have differ : name' ≠ name := by
        rintro rfl
        exact other (by rw [table.id_unique named named'])
      rw [found]
      simp only [table.read named']
      exact (if_neg differ).trans (ih (by omega) (by omega))

theorem getSymbolIndex_stored (table : Table db names) {id : ℕ} {name : Bytes}
    (named : names[id]? = some name) : dbGetSymbolIndex db name = .ok id := by
  obtain ⟨i, last, here, before⟩ := table.byName id name named
  rw [dbGetSymbolIndex, List.range_eq_range']
  exact getSymbolIndexFrom_stored table named last here before (Nat.zero_le _) (by omega)

private theorem getSymbolIndexFrom_absent (table : Table db names) {name : Bytes}
    (absent : name ∉ names) (probes : List ℕ) : getSymbolIndexFrom db name probes = .ok 0 := by
  induction probes with
  | nil => rfl
  | cons i probes ih =>
    rw [getSymbolIndexFrom]
    rcases found : db.lookup (probeKey name i) with _ | leaf
    · rfl
    · obtain ⟨id, name', named, rfl⟩ := table.entries _ _ found
      have differ : name' ≠ name := fun same => absent (same ▸ List.mem_of_getElem? named)
      simp only [table.read named]
      exact (if_neg differ).trans ih

theorem getSymbolIndex_absent (table : Table db names) {name : Bytes} (absent : name ∉ names) :
    dbGetSymbolIndex db name = .ok 0 := table.getSymbolIndexFrom_absent absent _

private theorem findKeyFrom_free (table : Table db names) {name : Bytes} (absent : name ∉ names)
    {k m i : ℕ} (reach : k ≤ i) (upto : i < k + m) (free : probeKey name i ∉ db) :
    ∃ j, k ≤ j ∧ j < k + m ∧ findKeyFrom db name (List.range' k m) = .ok (some (probeKey name j)) ∧
      db.lookup (probeKey name j) = none ∧
      ∀ j', k ≤ j' → j' < j → ∃ leaf, db.lookup (probeKey name j') = some leaf := by
  induction m generalizing k with
  | zero => omega
  | succ m ih =>
    rw [List.range'_succ, findKeyFrom]
    rcases found : db.lookup (probeKey name k) with _ | leaf
    · exact ⟨k, le_refl k, by omega, rfl, found, fun j' low high => by omega⟩
    · have passed : k ≠ i := by
        rintro rfl
        rw [Finmap.lookup_eq_none.2 free] at found
        exact nomatch found
      obtain ⟨id, name', named, rfl⟩ := table.entries _ _ found
      have short := table.short name' (List.mem_of_getElem? named)
      have differ : name' ≠ name := fun same => absent (same ▸ List.mem_of_getElem? named)
      obtain ⟨j, low, high, search, none, taken⟩ := ih (k := k + 1) (by omega) (by omega)
      refine ⟨j, by omega, by omega, ?_, none, fun j' low' high' => ?_⟩
      · simp only [strLen_symbolEntry id short, length_symbolEntry, ne_eq, not_true_eq_false,
          if_false, drop_eight_symbolEntry, List.take_length, differ]
        exact search
      · rcases Nat.eq_or_lt_of_le low' with rfl | later
        · exact ⟨_, found⟩
        · exact taken j' later high'

/-- The database after a symbol is written under a hash key and under its id. -/
def withSymbol (db : SymbolsDb) (key id : ℕ) (name : Bytes) : SymbolsDb :=
  (db.insert key (symbolEntry id name)).insert id (symbolEntry id name)

private theorem lookup_withSymbol (db : SymbolsDb) (key id : ℕ) (name : Bytes) (a : ℕ) :
    (withSymbol db key id name).lookup a =
      if a = id ∨ a = key then some (symbolEntry id name) else db.lookup a := by
  rw [withSymbol, lookup_insert_ite, lookup_insert_ite]
  grind

private theorem getElem?_append_singleton {α : Type} (l : List α) (x y : α) (i : ℕ) :
    (l ++ [x])[i]? = some y ↔ l[i]? = some y ∨ i = l.length ∧ y = x := by
  rw [List.getElem?_append]
  split
  case isTrue => grind
  case isFalse outside =>
    rw [List.getElem?_eq_none (Nat.le_of_not_lt outside)]
    grind

theorem append (table : Table db names) {name : Bytes} (absent : name ∉ names)
    (short : name.length < 256) (room : names.length < 2 ^ 29) {j : ℕ} (inside : j < 10)
    (unused : db.lookup (probeKey name j) = none)
    (taken : ∀ k < j, ∃ leaf, db.lookup (probeKey name k) = some leaf) :
    Table (withSymbol db (probeKey name j) names.length name) (names ++ [name]) := by
  have high := le_probeKey name j
  have fresh : db.lookup names.length = none := by
    rw [table.byId _ room, List.getElem?_eq_none (le_refl _)]
    rfl
  have keeps : ∀ {a : ℕ} {leaf : Bytes}, db.lookup a = some leaf →
      (withSymbol db (probeKey name j) names.length name).lookup a = some leaf := by
    intro a leaf found
    rw [lookup_withSymbol, if_neg, found]
    rintro (rfl | rfl)
    · exact nomatch fresh.symm.trans found
    · exact nomatch unused.symm.trans found
  refine ⟨?_, ?_, ?_, ?_, ?_, ?_, ?_⟩
  · apply List.nodup_append.2 ⟨table.distinct, List.nodup_singleton _, ?_⟩
    rintro a among b here rfl
    exact absent (List.mem_singleton.1 here ▸ among)
  · intro n among
    rcases List.mem_append.1 among with old | new
    · exact table.short n old
    · rw [List.mem_singleton.1 new]
      exact short
  · rw [List.length_append, List.length_singleton]
    omega
  · intro id small
    rw [lookup_withSymbol, table.byId id small]
    split
    case isTrue here =>
      obtain rfl : id = names.length := by omega
      rw [(getElem?_append_singleton _ _ _ _).2 (.inr ⟨rfl, rfl⟩)]
      rfl
    case isFalse other =>
      congr 1
      ext n
      rw [getElem?_append_singleton]
      grind
  · intro id n here
    rcases (getElem?_append_singleton _ _ _ _).1 here with old | ⟨rfl, rfl⟩
    · obtain ⟨k, few, found, before⟩ := table.byName id n old
      refine ⟨k, few, keeps found, fun k' less => ?_⟩
      obtain ⟨leaf, occupied, other⟩ := before k' less
      exact ⟨leaf, keeps occupied, other⟩
    · refine ⟨j, inside, by rw [lookup_withSymbol, if_pos (.inr rfl)], fun k less => ?_⟩
      obtain ⟨leaf, occupied⟩ := taken k less
      refine ⟨leaf, keeps occupied, ?_⟩
      rintro rfl
      obtain ⟨id', name', named', same⟩ := table.entries _ _ occupied
      have read := table.read named'
      rw [← same, customDataToSymbolEntry_symbolEntry room short] at read
      obtain ⟨-, rfl⟩ := Prod.mk.inj (Except.ok.inj read)
      exact absent (List.mem_of_getElem? named')
  · intro key leaf found
    rw [lookup_withSymbol] at found
    split at found
    case isTrue =>
      exact ⟨names.length, name, (getElem?_append_singleton _ _ _ _).2 (.inr ⟨rfl, rfl⟩),
        (Option.some.inj found).symm⟩
    case isFalse =>
      obtain ⟨id, n, old, same⟩ := table.entries key leaf found
      exact ⟨id, n, (getElem?_append_singleton _ _ _ _).2 (.inl old), same⟩
  · have unused' : ((db.insert (probeKey name j)
        (symbolEntry names.length name)).lookup names.length) = none := by
      rw [lookup_insert_ite, if_neg (by omega), fresh]
    rw [withSymbol, card_keys_insert _ unused', card_keys_insert _ unused, table.count,
      List.length_append, List.length_singleton]
    omega

theorem set (table : Table db names) {name : Bytes} (absent : name ∉ names)
    (short : name.length < 256) (room : names.length < 2 ^ 29)
    (place : ∃ i < 10, probeKey name i ∉ db) :
    ∃ db', dbSetSymbolIndex db names.length name = .ok (true, db') ∧
      Table db' (names ++ [name]) := by
  obtain ⟨i, last, free⟩ := place
  obtain ⟨j, -, inside, search, unused, taken⟩ := table.findKeyFrom_free absent (Nat.zero_le i)
    (by omega : i < 0 + 10) free
  rw [← List.range_eq_range'] at search
  refine ⟨withSymbol db (probeKey name j) names.length name, ?_, table.append absent short room
    (by omega) unused fun k less => taken k (Nat.zero_le k) less⟩
  rw [dbSetSymbolIndex, search]
  change (do
    let customData ← symbolEntryToCustomData names.length name
    return (true, (db.insert (probeKey name j) customData).insert names.length customData)) = _
  rw [symbolEntryToCustomData_ok room short]
  rfl

/-- The pairs that hand the names of a list the ids from `first` on. -/
def numbered (first : ℕ) (names : List Bytes) : List (ℕ × Bytes) :=
  (names.zipIdx first).map Prod.swap

theorem setSymbols (table : Table db names) {pending : List Bytes}
    (distinct : (names ++ pending).Nodup) (short : ∀ name ∈ pending, name.length < 256)
    (room : (names ++ pending).length ≤ 2 ^ 29)
    (placeable : Placeable db (numbered names.length pending)) :
    ∃ db', Symbols.setSymbols db (numbered names.length pending) = .ok db' ∧
      Table db' (names ++ pending) := by
  induction pending generalizing db names with
  | nil => exact ⟨db, rfl, by rwa [List.append_nil]⟩
  | cons name pending ih =>
    have absent : name ∉ names := fun among =>
      List.disjoint_of_nodup_append distinct among List.mem_cons_self
    rw [List.length_append, List.length_cons] at room
    obtain ⟨place, rest⟩ := placeable
    obtain ⟨db₁, written, table₁⟩ := table.set absent (short name List.mem_cons_self)
      (by omega) place
    simp only [written] at rest
    have split : names ++ name :: pending = names ++ [name] ++ pending := by simp
    have next : numbered (names.length + 1) pending = numbered (names ++ [name]).length pending := by
      rw [List.length_append, List.length_singleton]
    obtain ⟨db', loop, table'⟩ := ih table₁ (split ▸ distinct)
      (fun n among => short n (List.mem_cons_of_mem _ among)) (by simp; omega) (next ▸ rest)
    refine ⟨db', ?_, split ▸ table'⟩
    change (dbSetSymbolIndex db names.length name >>= fun p =>
      Symbols.setSymbols p.2 (numbered (names.length + 1) pending)) = _
    rw [written, next]
    exact loop

end Table

end Table

section Sound

/-- The invariant of permitted runs: `names` are the names of the database in the order of their
ids, `pending` those handed out since the last commit. -/
structure Sound (s : SymbolState) (names pending : List Bytes) : Prop where
  table : Table s.symbolsDb names
  distinct : (names ++ pending).Nodup
  short : ∀ name ∈ pending, name.length < 256
  room : (names ++ pending).length ≤ 2 ^ 29
  newAtoms : s.newAtoms = Table.numbered names.length pending
  indices : ∀ name id, s.newAtomIndices.lookup name = some id → (names ++ pending)[id]? = some name
  known : s.nextAtomId = names.length + pending.length → ∀ name ∈ pending, name ∈ s.newAtomIndices
  start : s.startNextAtomId ≤ names.length
  nameToIndex : ∀ name id, s.atomNameToIndex.lookup name = some id →
    (names ++ pending)[id]? = some name
  indexToName : ∀ id name, s.atomIndexToName.lookup id = some name →
    (names ++ pending)[id]? = some name

namespace Sound

variable {s : SymbolState} {names pending : List Bytes}

theorem opened {db : SymbolsDb} (table : Table db names) : Sound (opened db) names [] where
  table := table
  distinct := (List.append_nil names).symm ▸ table.distinct
  short _ among := nomatch among
  room := (List.append_nil names).symm ▸ table.bounded
  newAtoms := rfl
  indices _ _ impossible := by simp [Symbols.opened] at impossible
  known _ _ among := nomatch among
  start := table.numSymbols.le
  nameToIndex _ _ impossible := by simp [Symbols.opened] at impossible
  indexToName _ _ impossible := by simp [Symbols.opened] at impossible

theorem numSymbols (sound : Sound s names pending) :
    numSymbols s = names.length + pending.length := by
  rw [Symbols.numSymbols, sound.table.numSymbols, sound.newAtoms, Table.numbered,
    List.length_map, List.length_zipIdx]

theorem setAtomIndex (sound : Sound s names pending) {name : Bytes} {id : ℕ}
    (named : (names ++ pending)[id]? = some name) :
    Sound (setAtomIndex s name id) names pending :=
  { sound with
    nameToIndex := by
      intro name' id' found
      rw [Symbols.setAtomIndex, lookup_insert_ite] at found
      split at found
      case isTrue here => rw [here, ← Option.some.inj found, named]
      case isFalse => exact sound.nameToIndex name' id' found
    indexToName := by
      intro id' name' found
      rw [Symbols.setAtomIndex, lookup_insert_ite] at found
      split at found
      case isTrue here => rw [here, ← Option.some.inj found, named]
      case isFalse => exact sound.indexToName id' name' found }

theorem clearAtomIndex (sound : Sound s names pending) (name : Bytes) (id : ℕ) :
    Sound (clearAtomIndex s name id) names pending :=
  { sound with
    nameToIndex := fun name' id' found => sound.nameToIndex name' id' (lookup_erase_some found)
    indexToName := fun id' name' found => sound.indexToName id' name' (lookup_erase_some found) }

private theorem clearAtoms (sound : Sound s names pending) (atoms : List (ℕ × Bytes)) :
    Sound (atoms.foldl (fun s sym => Symbols.clearAtomIndex s sym.2 sym.1) s) names pending := by
  induction atoms generalizing s with
  | nil => exact sound
  | cons atom atoms ih => exact ih (sound.clearAtomIndex atom.2 atom.1)

theorem discard (sound : Sound s names pending) : Sound (discardSymbols s) names pending := by
  have cleared := sound.clearAtoms s.newAtoms
  exact {
    cleared with
    indices := fun _ _ impossible => by simp [discardSymbols] at impossible
    -- a counter that agrees with the number of symbols means that nothing is pending
    known := by
      intro agrees name among
      have low := cleared.start
      have some_pending := List.length_pos_of_mem among
      simp only [discardSymbols] at agrees
      omega }

theorem new_name (sound : Sound s names pending) {name : Bytes}
    (unknown : dbGetSymbolIndex s.symbolsDb name = .ok 0) (may : MayHandOut s name) :
    name ∉ names ++ pending := by
  obtain ⟨agrees, -, -, unlisted, notFirst⟩ := may
  rw [List.mem_append]
  rintro (among | among)
  · obtain ⟨id, named⟩ := List.mem_iff_getElem?.1 among
    obtain rfl : id = 0 :=
      Except.ok.inj ((sound.table.getSymbolIndex_stored named).symm.trans unknown)
    apply notFirst
    rw [sound.table.getSymbolName (by decide), named]
    refine ⟨?_, rfl⟩
    rw [← Finmap.lookup_isSome, sound.table.byId 0 (by decide), named]
    rfl
  · exact unlisted (sound.known (agrees.trans sound.numSymbols) name among)

private theorem numbered_append (first : ℕ) (pending : List Bytes) (name : Bytes) :
    Table.numbered first (pending ++ [name]) =
      Table.numbered first pending ++ [(first + pending.length, name)] := by
  simp [Table.numbered, List.zipIdx_append]

theorem handOut (sound : Sound s names pending) {name : Bytes}
    (unknown : dbGetSymbolIndex s.symbolsDb name = .ok 0) (may : MayHandOut s name) :
    Sound (handOut s name).2 names (pending ++ [name]) := by
  have new := sound.new_name unknown may
  obtain ⟨agrees, small, short, -, -⟩ := may
  have next : s.nextAtomId = (names ++ pending).length := by
    rw [agrees, sound.numSymbols, List.length_append]
  have grows : ∀ {id : ℕ} {n : Bytes}, (names ++ pending)[id]? = some n →
      (names ++ (pending ++ [name]))[id]? = some n := by
    intro id n named
    rw [← List.append_assoc]
    exact (Table.getElem?_append_singleton _ _ _ _).2 (.inl named)
  have here : (names ++ (pending ++ [name]))[s.nextAtomId]? = some name := by
    rw [← List.append_assoc]
    exact (Table.getElem?_append_singleton _ _ _ _).2 (.inr ⟨next, rfl⟩)
  refine ⟨sound.table, ?_, ?_, ?_, ?_, ?_, ?_, sound.start, ?_, ?_⟩
  · rw [← List.append_assoc]
    apply List.nodup_append.2 ⟨sound.distinct, List.nodup_singleton _, ?_⟩
    rintro a among b single rfl
    exact new (List.mem_singleton.1 single ▸ among)
  · intro n among
    rcases List.mem_append.1 among with old | latest
    · exact sound.short n old
    · rw [List.mem_singleton.1 latest]
      exact short
  · rw [← List.append_assoc, List.length_append, ← next]
    exact small
  · rw [numbered_append, ← List.length_append, ← next, ← sound.newAtoms]
    rfl
  · intro n id found
    simp only [Symbols.handOut, Symbols.setAtomIndex, lookup_insert_ite] at found
    split at found
    case isTrue same => rw [same, ← Option.some.inj found, here]
    case isFalse => exact grows (sound.indices n id found)
  · intro _ n among
    simp only [Symbols.handOut, Symbols.setAtomIndex, Finmap.mem_insert]
    rcases List.mem_append.1 among with old | latest
    · exact .inr (sound.known (agrees.trans sound.numSymbols) n old)
    · exact .inl (List.mem_singleton.1 latest)
  · intro n id found
    simp only [Symbols.handOut, Symbols.setAtomIndex, lookup_insert_ite] at found
    split at found
    case isTrue same => rw [same, ← Option.some.inj found, here]
    case isFalse => exact grows (sound.nameToIndex n id found)
  · intro id n found
    simp only [Symbols.handOut, Symbols.setAtomIndex, lookup_insert_ite] at found
    split at found
    case isTrue same => rw [same, ← Option.some.inj found, here]
    case isFalse => exact grows (sound.indexToName id n found)

theorem commit (sound : Sound s names pending) (placeable : Placeable s.symbolsDb s.newAtoms) :
    ∃ s', commitSymbols s = .ok s' ∧ Sound s' (names ++ pending) [] := by
  by_cases none : s.newAtoms = []
  · obtain rfl : pending = [] := by
      have empty := sound.newAtoms.symm.trans none
      simpa [Table.numbered] using empty
    exact ⟨s, if_pos none, (List.append_nil names).symm ▸ sound⟩
  · rw [sound.newAtoms] at placeable
    obtain ⟨db, written, table⟩ := sound.table.setSymbols sound.distinct sound.short sound.room
      placeable
    refine ⟨{ s with symbolsDb := db, newAtoms := [], newAtomIndices := ∅ }, ?_, ?_⟩
    · rw [commitSymbols, if_neg none, sound.newAtoms, written]
      rfl
    · exact {
        sound with
        table := table
        distinct := (List.append_nil (names ++ pending)).symm ▸ sound.distinct
        short := fun _ among => nomatch among
        room := (List.append_nil (names ++ pending)).symm ▸ sound.room
        newAtoms := rfl
        indices := fun _ _ impossible => by simp at impossible
        known := fun _ _ among => nomatch among
        start := sound.start.trans (by rw [List.length_append]; omega)
        nameToIndex := (List.append_nil (names ++ pending)).symm ▸ sound.nameToIndex
        indexToName := (List.append_nil (names ++ pending)).symm ▸ sound.indexToName }

theorem associated (sound : Sound s names pending) {id : ℕ} {name : Bytes}
    (somewhere : Associated s id name) : (names ++ pending)[id]? = some name := by
  rcases somewhere with ⟨key, leaf, found, entry⟩ | among | found | found | found
  · obtain ⟨id', name', named, rfl⟩ := sound.table.entries key leaf found
    obtain ⟨rfl, rfl⟩ := Prod.mk.inj (Except.ok.inj ((sound.table.read named).symm.trans entry))
    exact List.getElem?_append_left (List.getElem?_eq_some_iff.1 named).1 ▸ named
  · rw [sound.newAtoms, Table.numbered, List.mem_map] at among
    obtain ⟨⟨n, k⟩, listed, same⟩ := among
    obtain ⟨rfl, rfl⟩ := Prod.mk.inj same
    obtain ⟨low, named⟩ := List.mem_zipIdx_iff_le_and_getElem?_sub.1 listed
    rw [List.getElem?_append_right low]
    exact named
  · exact sound.indices name id found
  · exact sound.nameToIndex name id found
  · exact sound.indexToName id name found

theorem bijective (sound : Sound s names pending) : Bijective s := by
  intro id name id' name' here here'
  have named := sound.associated here
  have named' := sound.associated here'
  constructor
  · rintro rfl
    exact Option.some.inj (named.symm.trans named')
  · rintro rfl
    obtain ⟨inside, at_id⟩ := List.getElem?_eq_some_iff.1 named
    obtain ⟨inside', at_id'⟩ := List.getElem?_eq_some_iff.1 named'
    exact sound.distinct.getElem_inj_iff.1 (at_id.trans at_id'.symm)

theorem stored (sound : Sound s names pending) {id : ℕ} {name : Bytes}
    (named : names[id]? = some name) : Stored s id name := by
  refine ⟨sound.table.getSymbolIndex_stored named, ?_⟩
  rw [sound.table.getSymbolName (sound.table.id_lt named), named]
  rfl

private theorem getElem?_of_appended {α : Type} {l l' : List α} (grows : l <+: l') {i : ℕ} {x : α}
    (found : l[i]? = some x) : l'[i]? = some x := by
  obtain ⟨rest, rfl⟩ := grows
  exact (List.getElem?_append_left (List.getElem?_eq_some_iff.1 found).1).trans found

theorem newAtom (sound : Sound s names pending) {name : Bytes}
    (may : dbGetSymbolIndex s.symbolsDb name = .ok 0 → MayHandOut s name) :
    ∃ id s' pending', newAtom s name = .ok (id, s') ∧ Sound s' names pending' := by
  by_cases unknown : dbGetSymbolIndex s.symbolsDb name = .ok 0
  · refine ⟨(Symbols.handOut s name).1, (Symbols.handOut s name).2, pending ++ [name], ?_,
      sound.handOut unknown (may unknown)⟩
    rw [Symbols.newAtom, unknown]
    rfl
  · have among : name ∈ names := by
      by_contra absent
      exact unknown (sound.table.getSymbolIndex_absent absent)
    obtain ⟨id, named⟩ := List.mem_iff_getElem?.1 among
    have found := sound.table.getSymbolIndex_stored named
    refine ⟨id, s, pending, ?_, sound⟩
    rw [Symbols.newAtom, found]
    exact if_pos (by rintro rfl; exact unknown found)

theorem loadAtomIndex (sound : Sound s names pending) {name : Bytes}
    (may : name ∉ s.newAtomIndices → dbGetSymbolIndex s.symbolsDb name = .ok 0 →
      MayHandOut s name) :
    ∃ s' pending', loadAtomIndex s name = .ok s' ∧ Sound s' names pending' := by
  by_cases listed : name ∈ s.newAtomIndices
  · exact ⟨s, pending, if_pos listed, sound⟩
  · rw [Symbols.loadAtomIndex, if_neg listed]
    by_cases unknown : dbGetSymbolIndex s.symbolsDb name = .ok 0
    · obtain ⟨id, s', pending', handed, sound'⟩ := sound.newAtom (may listed)
      refine ⟨s', pending', ?_, sound'⟩
      rw [unknown, handed]
      rfl
    · have among : name ∈ names := by
        by_contra absent
        exact unknown (sound.table.getSymbolIndex_absent absent)
      obtain ⟨id, named⟩ := List.mem_iff_getElem?.1 among
      have found := sound.table.getSymbolIndex_stored named
      refine ⟨_, pending, ?_, sound.setAtomIndex (getElem?_of_appended (List.prefix_append _ _) named)⟩
      rw [found]
      exact if_pos (by rintro rfl; exact unknown found)

theorem loadAtomName (sound : Sound s names pending) (index : ℕ) :
    loadAtomName s index = .error .assertion ∨
      ∃ s', loadAtomName s index = .ok s' ∧ Sound s' names pending := by
  by_cases small : index < 2 ^ 29
  · right
    have read := sound.table.getSymbolName small
    by_cases empty : names[index]?.getD [] = []
    · refine ⟨s, ?_, sound⟩
      rw [Symbols.loadAtomName, read, empty]
      rfl
    · obtain ⟨name, named⟩ : ∃ name, names[index]? = some name := by
        rcases found : names[index]? with _ | name
        · exact absurd (by rw [found]; rfl) empty
        · exact ⟨name, rfl⟩
      rw [named] at read empty
      refine ⟨_, ?_, sound.setAtomIndex (getElem?_of_appended (List.prefix_append _ _) named)⟩
      rw [Symbols.loadAtomName, read]
      exact if_pos empty
  · rcases sound.table.getSymbolName_hashKey (Nat.le_of_not_lt small) with read | read
    · right
      exact ⟨s, by rw [Symbols.loadAtomName, read]; rfl, sound⟩
    · left
      rw [Symbols.loadAtomName, read]
      rfl

theorem step (sound : Sound s names pending) {op : Op} (permitted : Permitted s op) :
    (∃ index, op = .loadAtomName index ∧ step s op = .error .assertion) ∨
      ∃ s' names' pending', step s op = .ok s' ∧ Sound s' names' pending' ∧ names <+: names' ∧
        ∀ p ∈ recorded s op, names'[p.1]? = some p.2 := by
  cases op with
  | newAtom name =>
    right
    obtain ⟨id, s', pending', reached, sound'⟩ := sound.newAtom permitted
    refine ⟨s', names, pending', ?_, sound', List.prefix_refl _, fun p among => nomatch among⟩
    rw [Symbols.step, reached]
    rfl
  | loadAtomIndex name =>
    right
    obtain ⟨s', pending', reached, sound'⟩ := sound.loadAtomIndex permitted
    exact ⟨s', names, pending', reached, sound', List.prefix_refl _, fun p among => nomatch among⟩
  | loadAtomName index =>
    rcases sound.loadAtomName index with failed | ⟨s', reached, sound'⟩
    · exact .inl ⟨index, rfl, failed⟩
    · exact .inr ⟨s', names, pending, reached, sound', List.prefix_refl _,
        fun p among => nomatch among⟩
  | commit =>
    right
    obtain ⟨s', reached, sound'⟩ := sound.commit permitted
    refine ⟨s', names ++ pending, [], reached, sound', List.prefix_append _ _, ?_⟩
    intro p among
    exact sound.associated (.inr (.inl among))
  | discard =>
    exact .inr ⟨_, names, pending, rfl, sound.discard, List.prefix_refl _,
      fun p among => nomatch among⟩
  | reopen =>
    exact .inr ⟨_, names, [], rfl, opened sound.table, List.prefix_refl _,
      fun p among => nomatch among⟩

private theorem run (ops : List Op) {log : List (ℕ × Bytes)} (sound : Sound s names pending)
    (logged : ∀ p ∈ log, names[p.1]? = some p.2) (permitted : PermittedRun s ops)
    {s' : SymbolState} {log' : List (ℕ × Bytes)} (reached : run s log ops = .ok (s', log')) :
    ∃ names' pending', Sound s' names' pending' ∧ ∀ p ∈ log', names'[p.1]? = some p.2 := by
  induction ops generalizing s names pending log with
  | nil =>
    obtain ⟨rfl, rfl⟩ := Prod.mk.inj (Except.ok.inj reached)
    exact ⟨names, pending, sound, logged⟩
  | cons op ops ih =>
    obtain ⟨allowed, rest⟩ := permitted
    rw [Symbols.run] at reached
    rcases sound.step allowed with ⟨index, -, failed⟩ |
      ⟨s₁, names₁, pending₁, moved, sound₁, grows, new⟩
    · rw [failed] at reached
      exact nomatch reached
    · rw [moved] at reached rest
      apply ih sound₁ ?_ rest reached
      intro p among
      rcases List.mem_append.1 among with old | latest
      · exact getElem?_of_appended grows (logged p old)
      · exact new p latest

end Sound

end Sound

section Results

/-- Two sessions; the second reads a symbol of the first and adds one. -/
def twoSessions : List Op :=
  [.loadAtomIndex (Cell.ascii "register"), .loadAtomIndex (Cell.ascii "transfer"), .commit,
    .reopen, .loadAtomIndex (Cell.ascii "transfer"), .loadAtomName 0,
    .newAtom (Cell.ascii "withdraw"), .commit]

private theorem associated_of_getSymbolIndex {s : SymbolState} {id : ℕ} {name : Bytes}
    (nonzero : id ≠ 0) (probes : List ℕ)
    (found : getSymbolIndexFrom s.symbolsDb name probes = .ok id) : Associated s id name := by
  induction probes with
  | nil => exact absurd (Except.ok.inj found).symm nonzero
  | cons i probes ih =>
    rw [getSymbolIndexFrom] at found
    rcases leafAt : s.symbolsDb.lookup (probeKey name i) with _ | leaf
    · rw [leafAt] at found
      exact absurd (Except.ok.inj found).symm nonzero
    · rw [leafAt] at found
      rcases read : customDataToSymbolEntry leaf with _ | ⟨id', name'⟩
      · simp only [read] at found
        exact nomatch found
      · simp only [read] at found
        change (if name' = name then _ else _) = _ at found
        split at found
        case isTrue same =>
          obtain rfl : id' = id := Except.ok.inj found
          exact .inl ⟨_, leaf, leafAt, same ▸ read⟩
        case isFalse => exact ih found

/-- A symbol is handed out, discarded, and committed with the next one under the same id. -/
def discardedSymbol : List Op :=
  [.loadAtomIndex (Cell.ascii "register"), .commit, .reopen,
    .loadAtomIndex (Cell.ascii "transfer"), .discard,
    .loadAtomIndex (Cell.ascii "withdraw"), .commit]

end Results

end Epilog.Global.SymbolTable
