/- Module: Epilog/Global/MetaForest
   source: src/src/global/blockchain.cpp, src/src/global/global.cpp (db_put_meta, set_tip)
   digest: Runs over the meta entries: which keep a forest that comes back when it is reopened. -/

import Epilog.Global.MetaRecords

set_option autoImplicit false

namespace Epilog.Global.MetaForest

open Epilog.Common.Bits Epilog.Lib.FiniteMap Epilog.Lib.Query Epilog.Lib.Fuel Epilog.Db.Store
  Epilog.Db.Iterator Epilog.Db.Versioned Epilog.Db.Roots Epilog.Db.Heights Epilog.Global.Chains
  Epilog.Global.MetaTerms Epilog.Global.MetaCodec Epilog.Global.MetaRecords

section Runs

inductive Op
  | advance (version time : UInt64) (roots : StoredEntry)
  | updateTip (id : MetaId)
  | putMeta (term : MetaTerm)
  | updateMetaEntry (e : StoredEntry)
  | setTip (id : MetaId)
  | init (available : StoredEntry → Bool) (tipFile : Option MetaId) (fuel : ℕ)

variable (P : TriedbParams) (validatePow : MetaId → Flt1648 → PowProof → Bool)

/-- One operation; the option is a failed assertion, or too little fuel. -/
def step (s : MetaStore) : Op → Option MetaStore
  | .advance version time roots => s.advance P version time roots
  | .updateTip id => s.updateTip P id
  | .putMeta term => s.putMeta P validatePow term
  | .updateMetaEntry e => s.updateMetaEntry P e
  | .setTip id => some (s.setTip id)
  | .init available tipFile fuel => s.init available tipFile fuel

def run : MetaStore → List Op → Option MetaStore
  | s, [] => some s
  | s, op :: ops => (step P validatePow s op).bind fun s => run s ops

end Runs

section WellFormed

/-- The ids filed at a height -/
def level (s : MetaStore) (h : ℕ) : Finset MetaId := (s.atHeight.lookup h).getD ∅

/-- A genesis entry, or an entry one above its previous one -/
def Linked (chains : FMap MetaId StoredEntry) (e : StoredEntry) : Prop :=
  (e.previousId = 0 ∧ e.height = 0) ∨
    ∃ p, chains.lookup e.previousId = some p ∧ e.height.toNat = p.height.toNat + 1

/-- The entries form a forest, they are filed at their heights, and reading the database again
gives the same tables. -/
structure WellFormed (s : MetaStore) : Prop where
  linked : ∀ id e, s.chains.lookup id = some e → Linked s.chains e
  filed : ∀ h id, id ∈ level s h ↔ ∃ e, s.chains.lookup id = some e ∧ e.height.toNat = h
  restored : ∀ available tipFile, ∃ n, ∀ fuel ≥ n, ∃ s', s.init available tipFile fuel = some s' ∧
    s'.chains = s.chains ∧ ∀ h, level s' h = level s h

end WellFormed

section Clean

/-- The fields that come back from the bytes of an entry -/
def Restorable (e : MetaEntry) : Prop :=
  e.timestamp = 0 ∧ e.powDifficulty.mantissa = 0x800000000000

/-- The steps that do no harm -/
def Clean (validatePow : MetaId → Flt1648 → PowProof → Bool) (s : MetaStore) : Op → Prop
  | .advance _ _ _ =>
      (s.tip.rootIdMeta = 0 ∧ s.tip.id = 0 ∧ s.metaDb.rootsPos = s.metaDb.rootsEnd) ∨
        s.tip.rootIdMeta ≠ 0 ∧ ∃ p, s.chains.lookup s.tip.id = some p ∧
          p.height = s.tip.height ∧ s.tip.height.toNat + 1 < 2 ^ 32
  | .updateTip id =>
      (∀ existing, s.chains.lookup id = some existing → withRoots existing s.tip = existing) ∧
        (s.chains.lookup id = none → id ≠ 0 ∧ Restorable s.tip.toMetaEntry ∧
          (s.tip.previousId = 0 → s.metaDb.rootsPos = s.metaDb.rootsEnd))
  | .putMeta term => ∀ e, dbParseMeta term = .ok (some e) → s.Added validatePow e →
      e.id ≠ 0 ∧ Restorable e ∧
        ∃ p, s.chains.lookup e.previousId = some p ∧ e.height.toNat = p.height.toNat + 1
  | .updateMetaEntry e => Restorable e.toMetaEntry ∧ ∃ old, s.chains.lookup e.id = some old ∧
      e.previousId = old.previousId ∧ e.height = old.height ∧ e.rootIdMeta = old.rootIdMeta
  | .setTip _ => True
  | .init .. => True

/-- A run of such steps -/
def CleanRun (P : TriedbParams) (validatePow : MetaId → Flt1648 → PowProof → Bool) :
    MetaStore → List Op → Prop
  | _, [] => True
  | s, op :: ops => Clean validatePow s op ∧
      ∀ s', step P validatePow s op = some s' → CleanRun P validatePow s' ops

end Clean

theorem Restorable.time {e : MetaEntry} (restorable : Restorable e) :
    timeFromBytes (timeToBytes e.timestamp) = e.timestamp :=
  (time_round_trip_iff e.timestamp).2 restorable.1

theorem read_storedBytes {e : StoredEntry} (restorable : Restorable e.toMetaEntry) :
    { emptyEntry.read (storedBytes e) with
      height := e.height
      rootIdMeta := e.rootIdMeta } = e := by
  have difficulty : ({ exponent := e.powDifficulty.exponent
                       mantissa := emptyEntry.powDifficulty.mantissa } : Flt1648) =
      e.powDifficulty := congrArg (Flt1648.mk e.powDifficulty.exponent) restorable.2.symm
  rw [storedBytes, read_write_append, restorable.time, difficulty]

section Invariant

/-- The keys under a root are not above it, and every root above the first ones has one below. -/
structure Layered (m : Versions) (height : RootId → Option ℕ) : Prop where
  below : ∀ r f h, m r = some f → height r = some h → ∀ k, (f k).isSome = true → k.toNat ≤ h
  small : ∀ r h, height r = some h → h < 2 ^ 32
  parent : ∀ r h, height r = some (h + 1) → ∃ r', height r' = some h

/-- An entry is stored under its own root, at its height. -/
structure Recorded (m : Versions) (height : RootId → Option ℕ) (id : MetaId) (e : StoredEntry) :
    Prop where
  own : e.id = id
  nonzero : id ≠ 0
  restorable : Restorable e.toMetaEntry
  height : height e.rootIdMeta.toNat = some e.height.toNat
  bytes : ∃ f, m e.rootIdMeta.toNat = some f ∧ f e.height.toUInt64 = some (storedBytes e)

/-- What every clean step keeps, with the maps and heights of the roots -/
structure Kept (s : MetaStore) (m : Versions) (height : RootId → Option ℕ) : Prop where
  holds : Holds s.metaDb m height
  layered : Layered m height
  recorded : ∀ id e, s.chains.lookup id = some e → Recorded m height id e
  owned : ∀ r f h data, m r = some f → height r = some h → f (UInt64.ofNat h) = some data →
    ∃ id e, s.chains.lookup id = some e ∧ e.rootIdMeta.toNat = r
  linked : ∀ id e, s.chains.lookup id = some e → Linked s.chains e
  filed : ∀ h id, id ∈ level s h ↔ ∃ e, s.chains.lookup id = some e ∧ e.height.toNat = h
  tipLinked : Linked s.chains s.tip
  tipRoot : s.tip.rootIdMeta ≠ 0 → height s.tip.rootIdMeta.toNat = some s.tip.height.toNat

theorem kept_empty : Kept {} (fun _ => none) fun _ => none where
  holds := holds_empty
  layered := ⟨nofun, nofun, nofun⟩
  recorded _ _ found := nomatch found
  owned _ _ _ _ known := nomatch known
  linked _ _ found := nomatch found
  filed h id := by
    constructor
    · exact fun member => absurd member (Finset.notMem_empty id)
    · exact fun ⟨_, found, _⟩ => nomatch found
  tipLinked := .inl ⟨rfl, rfl⟩
  tipRoot nonzero := absurd rfl nonzero

theorem Linked.mono {chains chains' : FMap MetaId StoredEntry} {e : StoredEntry}
    (keep : ∀ id p, chains.lookup id = some p →
      ∃ p', chains'.lookup id = some p' ∧ p'.height = p.height)
    (linked : Linked chains e) : Linked chains' e := by
  rcases linked with genesis | ⟨p, found, above⟩
  · exact .inl genesis
  · obtain ⟨p', found', same⟩ := keep _ p found
    refine .inr ⟨p', found', ?_⟩
    rw [same]
    exact above

variable {s : MetaStore} {m : Versions} {height : RootId → Option ℕ}

theorem Kept.lookup_zero (kept : Kept s m height) : s.chains.lookup 0 = none := by
  cases found : s.chains.lookup 0 with
  | none => rfl
  | some e => exact absurd rfl (kept.recorded 0 e found).nonzero

theorem Kept.sole (kept : Kept s m height) {id id' : MetaId} {e e' : StoredEntry}
    (found : s.chains.lookup id = some e) (found' : s.chains.lookup id' = some e')
    (shared : e.rootIdMeta.toNat = e'.rootIdMeta.toNat) : id = id' := by
  obtain ⟨own, -, -, at', f, known, bytes⟩ := kept.recorded id e found
  obtain ⟨own', -, -, at'', g, known', bytes'⟩ := kept.recorded id' e' found'
  rw [← shared] at at'' known'
  have heights : e.height = e'.height :=
    UInt32.toNat_inj.1 (Option.some.inj (at'.symm.trans at''))
  rw [← heights, ← Option.some.inj (known.symm.trans known'), bytes] at bytes'
  have ids := congrArg (fun data => (emptyEntry.read data).id) (Option.some.inj bytes')
  dsimp only [storedBytes] at ids
  rw [read_write_append, read_write_append] at ids
  rw [← own, ← own']
  exact ids

end Invariant

section Roots

variable {P : TriedbParams} {s : MetaStore} {m : Versions} {height : RootId → Option ℕ}

theorem called_some {α : Type} {x : Access α} {db db' : Triedb} {a : α}
    (ran : called x db = some (a, db')) : x db = .ok a db' := by
  unfold called at ran
  cases result : x db with
  | ok b after =>
    rw [result] at ran
    have same := Option.some.inj ran
    rw [(Prod.mk.inj same).1, (Prod.mk.inj same).2]
  | error e after =>
    rw [result] at ran
    exact nomatch ran

theorem toRootId_some {r : RootId} {id : UInt64} (given : toRootId r = some id) : id.toNat = r := by
  unfold toRootId at given
  split_ifs at given with small
  rw [← Option.some.inj given, UInt64.toNat_ofNat_of_lt' small]

/-- The map and the height of a new root without a parent, or below one -/
def Placed (m : Versions) (height : RootId → Option ℕ) (f : UInt64 → Option Bytes) (h : ℕ) :
    Option RootId → Prop
  | none => f = (fun _ => none) ∧ h = 0
  | some parent => m parent = some f ∧ ∃ h', height parent = some h' ∧ h = h' + 1

theorem newMetaRoot_holds {db db' : Triedb} (holds : Holds db m height) {parent : Option RootId}
    {f : UInt64 → Option Bytes} {h : ℕ} (placed : Placed m height f h parent)
    (atEnd : parent = none → db.rootsPos = db.rootsEnd) {r : UInt64}
    (ran : newMetaRoot P parent db = some (r, db')) : m r.toNat = none ∧
      Holds db' (Function.update m r.toNat (some f)) (Function.update height r.toNat (some h)) := by
  obtain ⟨⟨r₁, db₁⟩, created, ran⟩ := Option.bind_eq_some_iff.1 ran
  obtain ⟨r₂, given, ran⟩ := Option.bind_eq_some_iff.1 ran
  have same := Option.some.inj ran
  obtain rfl : r₂ = r := (Prod.mk.inj same).1
  obtain rfl : db₁ = db' := (Prod.mk.inj same).2
  have position := toRootId_some given
  cases parent with
  | none =>
    obtain ⟨rfl, rfl⟩ := placed
    obtain ⟨r', db₂, done, unused, holds'⟩ := holds.newRoot (P := P) (atEnd rfl)
    have same' := EStateM.Result.ok.inj ((called_some created).symm.trans done)
    rw [position, same'.1, same'.2]
    exact ⟨unused, holds'⟩
  | some parent =>
    obtain ⟨known, h', at', rfl⟩ := placed
    obtain ⟨r', db₂, done, unused, holds'⟩ := holds.newRootFrom known at'
    have same' := EStateM.Result.ok.inj ((called_some created).symm.trans done)
    rw [position, same'.1, same'.2]
    exact ⟨unused, holds'⟩

theorem Kept.newRoot (kept : Kept s m height) {parent : Option RootId} {f : UInt64 → Option Bytes}
    {h : ℕ} (placed : Placed m height f h parent) (small : h < 2 ^ 32)
    (atEnd : parent = none → s.metaDb.rootsPos = s.metaDb.rootsEnd) {r : UInt64} {db' : Triedb}
    (ran : newMetaRoot P parent s.metaDb = some (r, db')) :
    m r.toNat = none ∧ Kept { s with metaDb := db' } (Function.update m r.toNat (some f))
      (Function.update height r.toNat (some h)) := by
  obtain ⟨unused, holds⟩ := newMetaRoot_holds kept.holds placed atEnd ran
  have unheard : height r.toNat = none := by
    have same := kept.holds.known_iff r.toNat
    rw [unused] at same
    cases at' : height r.toNat with
    | none => rfl
    | some _ =>
      rw [at'] at same
      exact nomatch same.2 rfl
  have other {r' : RootId} {h' : ℕ} (at' : height r' = some h') : r' ≠ r.toNat := by
    rintro rfl
    exact nomatch unheard.symm.trans at'
  -- the leaves that a new root takes over lie below it
  have lower : ∀ k, (f k).isSome = true → k.toNat < h := by
    intro k here
    cases parent with
    | none =>
      obtain ⟨rfl, rfl⟩ := placed
      exact nomatch here
    | some parent =>
      obtain ⟨known, h', at', rfl⟩ := placed
      exact Nat.lt_succ_of_le (kept.layered.below parent f h' known at' k here)
  refine ⟨unused, holds, ⟨?_, ?_, ?_⟩, ?_, ?_, kept.linked, kept.filed, kept.tipLinked, ?_⟩
  · intro r' g h' known at' k here
    rw [Function.update_apply] at known at'
    split_ifs at known at' with same
    · rw [← Option.some.inj known] at here
      rw [← Option.some.inj at']
      exact (lower k here).le
    · exact kept.layered.below r' g h' known at' k here
  · intro r' h' at'
    rw [Function.update_apply] at at'
    split_ifs at at' with same
    · rw [← Option.some.inj at']
      exact small
    · exact kept.layered.small r' h' at'
  · intro r' h' at'
    have beneath : ∃ r'', height r'' = some h' := by
      rw [Function.update_apply] at at'
      split_ifs at at' with same
      · cases parent with
        | none =>
          obtain ⟨-, rfl⟩ := placed
          exact nomatch Option.some.inj at'
        | some parent =>
          obtain ⟨-, h'', below, rfl⟩ := placed
          rw [← Nat.succ.inj (Option.some.inj at')]
          exact ⟨parent, below⟩
      · exact kept.layered.parent r' h' at'
    obtain ⟨r'', at''⟩ := beneath
    exact ⟨r'', (Function.update_of_ne (other at'') _ _).trans at''⟩
  · intro id e found
    obtain ⟨own, nonzero, restorable, at', g, known, bytes⟩ := kept.recorded id e found
    refine ⟨own, nonzero, restorable, ?_, g, ?_, bytes⟩
    · rw [Function.update_of_ne (other at')]
      exact at'
    · rw [Function.update_of_ne (other at')]
      exact known
  · intro r' g h' data known at' stored
    rw [Function.update_apply] at known at'
    split_ifs at known at' with same
    · have here := lower (UInt64.ofNat h') (by rw [Option.some.inj known, stored]; rfl)
      rw [← Option.some.inj at', UInt64.toNat_ofNat_of_lt' (by rw [UInt64.size]; omega)] at here
      exact absurd here (lt_irrefl h)
    · exact kept.owned r' g h' data known at' stored
  · intro nonzero
    have at' := kept.tipRoot nonzero
    rw [Function.update_of_ne (other at')]
    exact at'

theorem Kept.updateMetaEntry (kept : Kept s m height) {e : StoredEntry} (nonzero : e.id ≠ 0)
    (restorable : Restorable e.toMetaEntry) (linked : Linked s.chains e)
    (at' : height e.rootIdMeta.toNat = some e.height.toNat)
    (sole : ∀ id' e', s.chains.lookup id' = some e' → e'.rootIdMeta.toNat = e.rootIdMeta.toNat →
      id' = e.id)
    (same : ∀ old, s.chains.lookup e.id = some old →
      old.height = e.height ∧ old.rootIdMeta = e.rootIdMeta)
    {s' : MetaStore} (ran : s.updateMetaEntry P e = some s') :
    s'.tip = s.tip ∧ s'.chains = s.chains.insert e.id e ∧ ∃ m', Kept s' m' height := by
  obtain ⟨⟨u, db⟩, called, ran⟩ := Option.bind_eq_some_iff.1 ran
  have made := Option.some.inj ran
  have known : ∃ f, m e.rootIdMeta.toNat = some f := by
    rw [← Option.isSome_iff_exists, kept.holds.known_iff, at']
    rfl
  obtain ⟨f, known⟩ := known
  have holds := kept.holds.update known (called_some called)
  have key : e.height.toUInt64.toNat = e.height.toNat := UInt32.toNat_toUInt64 _
  have keyEq : UInt64.ofNat e.height.toNat = e.height.toUInt64 := by
    rw [← key, UInt64.ofNat_toNat]
  have lookups (id : MetaId) : (s.chains.insert e.id e).lookup id =
      if id = e.id then some e else s.chains.lookup id := lookup_insert_ite _ _ _ _
  have keep : ∀ id p, s.chains.lookup id = some p →
      ∃ p', (s.chains.insert e.id e).lookup id = some p' ∧ p'.height = p.height := by
    intro id p found
    rw [lookups]
    split_ifs with here
    · rw [here] at found
      exact ⟨e, rfl, (same p found).1.symm⟩
    · exact ⟨p, found, rfl⟩
  have others {id' : MetaId} {e' : StoredEntry} (found : s.chains.lookup id' = some e')
      (other : id' ≠ e.id) : e'.rootIdMeta.toNat ≠ e.rootIdMeta.toNat :=
    fun shared => other (sole id' e' found shared)
  have levels (h : ℕ) : level s' h =
      if h = e.height.toNat then insert e.id (level s h) else level s h := by
    rw [← made]
    change ((s.atHeight.insert e.height.toNat _).lookup h).getD ∅ = _
    rw [lookup_insert_ite]
    split_ifs with here
    · rw [here]
      rfl
    · rfl
  rw [← made]
  refine ⟨rfl, rfl, _, holds, ⟨?_, kept.layered.small, kept.layered.parent⟩, ?_, ?_, ?_, ?_,
    kept.tipLinked.mono keep, kept.tipRoot⟩
  · intro r g h known' atH k here
    rw [Function.update_apply] at known'
    split_ifs at known' with sameRoot
    · rw [← Option.some.inj known', Function.update_apply] at here
      rw [sameRoot, at'] at atH
      split_ifs at here with sameKey
      · rw [sameKey, key, Option.some.inj atH]
      · exact kept.layered.below _ f h known (by rw [at', atH]) k here
    · exact kept.layered.below r g h known' atH k here
  · intro id e' found
    rw [lookups] at found
    split_ifs at found with here
    · rw [← Option.some.inj found]
      refine ⟨here.symm, here ▸ nonzero, restorable, at', _, Function.update_self .., ?_⟩
      rw [Function.update_self]
    · obtain ⟨own, nonzero', restorable', atE, g, known', bytes⟩ := kept.recorded id e' found
      refine ⟨own, nonzero', restorable', atE, g, ?_, bytes⟩
      rw [Function.update_of_ne (others found here)]
      exact known'
  · intro r g h data known' atH stored
    rw [Function.update_apply] at known'
    split_ifs at known' with sameRoot
    · refine ⟨e.id, e, ?_, sameRoot.symm⟩
      rw [lookups, if_pos rfl]
    · obtain ⟨id, e', found, owns⟩ := kept.owned r g h data known' atH stored
      refine ⟨id, e', ?_, owns⟩
      rw [lookups, if_neg]
      · exact found
      · rintro rfl
        exact sameRoot (owns.symm.trans (congrArg UInt64.toNat (same e' found).2))
  · intro id e' found
    rw [lookups] at found
    split_ifs at found with here
    · rw [← Option.some.inj found]
      exact linked.mono keep
    · exact (kept.linked id e' found).mono keep
  · intro h id
    rw [← made] at levels
    rw [levels]
    change _ ↔ ∃ e', (s.chains.insert e.id e).lookup id = some e' ∧ e'.height.toNat = h
    rw [lookups]
    by_cases here : id = e.id
    · simp only [if_pos here, Option.some.injEq, exists_eq_left']
      split_ifs with atHeight
      · rw [here, atHeight]
        exact ⟨fun _ => rfl, fun _ => Finset.mem_insert_self _ _⟩
      · constructor
        · intro member
          obtain ⟨old, found, oldHeight⟩ := (kept.filed h id).1 member
          rw [here] at found
          rw [(same old found).1] at oldHeight
          exact oldHeight
        · exact fun atE => absurd atE.symm atHeight
    · simp only [if_neg here, ← kept.filed]
      split_ifs with atHeight
      · rw [Finset.mem_insert]
        exact or_iff_right here
      · exact Iff.rfl

theorem Kept.addMetaEntry (kept : Kept s m height) {e : StoredEntry} (nonzero : e.id ≠ 0)
    (restorable : Restorable e.toMetaEntry) (linked : Linked s.chains e)
    (unknown : s.chains.lookup e.id = none)
    (atEnd : e.previousId = 0 → s.metaDb.rootsPos = s.metaDb.rootsEnd) {e' : StoredEntry}
    {s' : MetaStore} (ran : s.addMetaEntry P e = some (e', s')) :
    (∃ r, e' = { e with rootIdMeta := r }) ∧ s'.chains = s.chains.insert e.id e' ∧
      ∃ m' height', Kept s' m' height' ∧ height' e'.rootIdMeta.toNat = some e.height.toNat := by
  obtain ⟨parent, under, ran⟩ := Option.bind_eq_some_iff.1 ran
  obtain ⟨⟨r, db⟩, created, ran⟩ := Option.bind_eq_some_iff.1 ran
  obtain ⟨s₁, written, ran⟩ := Option.bind_eq_some_iff.1 ran
  have made := Prod.mk.inj (Option.some.inj ran)
  have placed : ∃ f, Placed m height f e.height.toNat parent ∧
      (parent = none → s.metaDb.rootsPos = s.metaDb.rootsEnd) := by
    rw [MetaStore.parentRoot] at under
    by_cases first : e.previousId = 0
    · rw [if_pos first] at under
      rcases linked with genesis | ⟨p, found, _⟩
      · rw [← Option.some.inj under, genesis.2]
        exact ⟨_, ⟨rfl, rfl⟩, fun _ => atEnd first⟩
      · rw [first, kept.lookup_zero] at found
        exact nomatch found
    · rw [if_neg first] at under
      obtain ⟨p, found, rfl⟩ := Option.map_eq_some_iff.1 under
      obtain ⟨-, -, -, at', f, known, -⟩ := kept.recorded _ p found
      rcases linked with genesis | ⟨p', found', above⟩
      · exact absurd genesis.1 first
      · obtain rfl := Option.some.inj (found.symm.trans found')
        exact ⟨f, ⟨known, _, at', above⟩, nofun⟩
  obtain ⟨f, placed, atEnd'⟩ := placed
  obtain ⟨unused, kept₁⟩ := kept.newRoot placed e.height.toNat_lt atEnd' created
  have at' : Function.update height r.toNat (some e.height.toNat) r.toNat = some e.height.toNat :=
    Function.update_self ..
  have sole : ∀ id' e₁, s.chains.lookup id' = some e₁ → e₁.rootIdMeta.toNat = r.toNat →
      id' = e.id := by
    intro id' e₁ found shared
    obtain ⟨-, -, -, -, g, known, -⟩ := kept.recorded id' e₁ found
    rw [shared, unused] at known
    exact nomatch known
  obtain ⟨-, chains, m', kept'⟩ := kept₁.updateMetaEntry (e := { e with rootIdMeta := r }) nonzero
    restorable linked at' sole (fun old found => nomatch unknown.symm.trans found) written
  rw [← made.1, ← made.2]
  exact ⟨⟨r, rfl⟩, chains, m', _, kept', at'⟩

end Roots

section Steps

variable {P : TriedbParams} {s s' : MetaStore} {m : Versions} {height : RootId → Option ℕ}

theorem Kept.withTip (kept : Kept s m height) {tip : StoredEntry} (linked : Linked s.chains tip)
    (root : tip.rootIdMeta ≠ 0 → height tip.rootIdMeta.toNat = some tip.height.toNat) :
    Kept { s with tip := tip } m height :=
  { kept with tipLinked := linked, tipRoot := root }

theorem Kept.withEntry (kept : Kept s m height) {id : MetaId} {e : StoredEntry}
    (found : s.chains.lookup id = some e) : Kept { s with tip := e } m height :=
  kept.withTip (kept.linked id e found) fun _ => (kept.recorded id e found).height

theorem advance_some {version time : UInt64} {roots : StoredEntry}
    (ran : s.advance P version time roots = some s') : ∃ r db,
      newMetaRoot P (if s.tip.rootIdMeta = 0 then none else some s.tip.rootIdMeta.toNat) s.metaDb =
        some (r, db) ∧
      s' = { s with
        metaDb := db
        tip := MetaValidation.advance s.tip { roots with rootIdMeta := r } version time } := by
  obtain ⟨⟨r, db⟩, created, made⟩ := Option.bind_eq_some_iff.1 ran
  exact ⟨r, db, created, (Option.some.inj made).symm⟩

theorem Kept.advance (kept : Kept s m height) {version time : UInt64} {roots : StoredEntry}
    (clean : (s.tip.rootIdMeta = 0 ∧ s.tip.id = 0 ∧ s.metaDb.rootsPos = s.metaDb.rootsEnd) ∨
      s.tip.rootIdMeta ≠ 0 ∧ ∃ p, s.chains.lookup s.tip.id = some p ∧
        p.height = s.tip.height ∧ s.tip.height.toNat + 1 < 2 ^ 32)
    (ran : s.advance P version time roots = some s') : ∃ m' height', Kept s' m' height' := by
  obtain ⟨r, db, created, made⟩ := advance_some ran
  rcases clean with ⟨noRoot, noId, atEnd⟩ | ⟨someRoot, p, found, same, small⟩
  · rw [if_pos noRoot] at created
    have placed : Placed m height (fun _ => none) 0 none := ⟨rfl, rfl⟩
    have kept' := (kept.newRoot placed (by decide) (fun _ => atEnd) created).2
    have zero : (MetaValidation.advance s.tip { roots with rootIdMeta := r } version time).height =
        0 := if_pos noRoot
    rw [made]
    refine ⟨_, _, kept'.withTip (.inl ⟨noId, zero⟩) fun _ => ?_⟩
    rw [zero]
    exact Function.update_self ..
  · rw [if_neg someRoot] at created
    have at' := kept.tipRoot someRoot
    have known : ∃ f, m s.tip.rootIdMeta.toNat = some f := by
      rw [← Option.isSome_iff_exists, kept.holds.known_iff, at']
      rfl
    obtain ⟨f, known⟩ := known
    have placed : Placed m height f (s.tip.height.toNat + 1) (some s.tip.rootIdMeta.toNat) :=
      ⟨known, _, at', rfl⟩
    have kept' := (kept.newRoot placed small nofun created).2
    have above : (MetaValidation.advance s.tip { roots with rootIdMeta := r } version time).height =
        s.tip.height + 1 := if_neg someRoot
    have noWrap : (s.tip.height + 1).toNat = s.tip.height.toNat + 1 := by
      rw [UInt32.toNat_add]
      exact Nat.mod_eq_of_lt small
    rw [made]
    refine ⟨_, _, kept'.withTip (.inr ⟨p, found, ?_⟩) fun _ => ?_⟩
    · rw [above, noWrap, same]
    · rw [above, noWrap]
      exact Function.update_self ..

theorem Kept.updateTip (kept : Kept s m height) {id : MetaId}
    (existing : ∀ e, s.chains.lookup id = some e → withRoots e s.tip = e)
    (new : s.chains.lookup id = none → id ≠ 0 ∧ Restorable s.tip.toMetaEntry ∧
      (s.tip.previousId = 0 → s.metaDb.rootsPos = s.metaDb.rootsEnd))
    (ran : s.updateTip P id = some s') : ∃ m' height', Kept s' m' height' := by
  have kept₀ : Kept { s with tip := { s.tip with id := id } } m height :=
    kept.withTip kept.tipLinked kept.tipRoot
  rw [MetaStore.updateTip] at ran
  cases found : s.chains.lookup id with
  | some e =>
    rw [found] at ran
    have made := Option.some.inj ran
    have own := (kept.recorded id e found).own
    have same : (if id = e.id then
        s.chains.insert id (withRoots e { s.tip with id := id }) else s.chains) = s.chains := by
      rw [if_pos own.symm]
      have unchanged : withRoots e { s.tip with id := id } = e := existing e found
      rw [unchanged]
      apply Finmap.ext_lookup
      intro id'
      rw [lookup_insert_ite]
      split_ifs with here
      · rw [here, found]
      · rfl
    dsimp only at made
    rw [same] at made
    rw [← made]
    exact ⟨m, height, kept₀⟩
  | none =>
    rw [found] at ran
    obtain ⟨⟨tip, s₁⟩, added, ran⟩ := Option.bind_eq_some_iff.1 ran
    have made := Option.some.inj ran
    obtain ⟨nonzero, restorable, atEnd⟩ := new found
    obtain ⟨⟨r, tipEq⟩, chains, m', height', kept', at'⟩ :=
      kept₀.addMetaEntry (e := { s.tip with id := id }) nonzero restorable kept₀.tipLinked found
        atEnd added
    have entry : s₁.chains.lookup id = some tip := by
      rw [chains, lookup_insert_ite]
      exact if_pos rfl
    rw [← made]
    exact ⟨m', height', kept'.withEntry entry⟩

theorem Kept.putMeta (kept : Kept s m height)
    {validatePow : MetaId → Flt1648 → PowProof → Bool} {term : MetaTerm}
    (clean : ∀ e, dbParseMeta term = .ok (some e) → s.Added validatePow e →
      e.id ≠ 0 ∧ Restorable e ∧
        ∃ p, s.chains.lookup e.previousId = some p ∧ e.height.toNat = p.height.toNat + 1)
    (ran : s.putMeta P validatePow term = some s') : ∃ m' height', Kept s' m' height' := by
  rw [MetaStore.putMeta] at ran
  cases parsed : dbParseMeta term with
  | error failure =>
    rw [parsed] at ran
    rw [← Option.some.inj ran]
    exact ⟨m, height, kept⟩
  | ok parsedEntry =>
    rw [parsed] at ran
    cases parsedEntry with
    | none =>
      rw [← Option.some.inj ran]
      exact ⟨m, height, kept⟩
    | some e =>
      dsimp only at ran
      split_ifs at ran with added
      · obtain ⟨⟨e', s₁⟩, inserted, made⟩ := Option.map_eq_some_iff.1 ran
        obtain ⟨nonzero, restorable, p, found, above⟩ := clean e parsed added
        have unknown := added.2.2.2
        have notFirst : e.previousId ≠ 0 := by
          intro zero
          rw [zero, kept.lookup_zero] at found
          exact nomatch found
        obtain ⟨-, -, m', height', kept', -⟩ := kept.addMetaEntry (e := { toMetaEntry := e })
          nonzero restorable (.inr ⟨p, found, above⟩) unknown (fun first => absurd first notFirst)
          inserted
        rw [← made]
        exact ⟨m', height', kept'⟩
      · rw [← Option.some.inj ran]
        exact ⟨m, height, kept⟩

theorem Kept.rewrite (kept : Kept s m height) {e old : StoredEntry}
    (restorable : Restorable e.toMetaEntry) (found : s.chains.lookup e.id = some old)
    (previous : e.previousId = old.previousId) (sameHeight : e.height = old.height)
    (sameRoot : e.rootIdMeta = old.rootIdMeta) (ran : s.updateMetaEntry P e = some s') :
    ∃ m' height', Kept s' m' height' := by
  obtain ⟨-, nonzero, -, at', -⟩ := kept.recorded e.id old found
  have linked : Linked s.chains e := by
    have linked := kept.linked e.id old found
    rw [Linked] at linked ⊢
    rw [previous, sameHeight]
    exact linked
  rw [← sameRoot, ← sameHeight] at at'
  have sole : ∀ id' e', s.chains.lookup id' = some e' →
      e'.rootIdMeta.toNat = e.rootIdMeta.toNat → id' = e.id := by
    intro id' e' found' shared
    rw [sameRoot] at shared
    exact kept.sole found' found shared
  obtain ⟨-, -, m', kept'⟩ := kept.updateMetaEntry nonzero restorable linked at' sole
    (fun old' found' => by
      obtain rfl := Option.some.inj (found.symm.trans found')
      exact ⟨sameHeight.symm, sameRoot.symm⟩) ran
  exact ⟨m', height, kept'⟩

end Steps

section Reopening

variable {s : MetaStore} {m : Versions} {height : RootId → Option ℕ}
  {available : StoredEntry → Bool}

theorem readEntry_lasting (db : Triedb) (h : ℕ) (root : RootId) :
    Lasting fun n => readEntry db n h root :=
  (find_lasting root (UInt64.ofNat h)).bind fun _ => .const _

theorem readRoot_lasting (db : Triedb) (h : ℕ) (t : Tables) (root : RootId) :
    Lasting fun n => readRoot db available n h t root :=
  (readEntry_lasting db h root).bind fun _ => .const _

theorem readLevels_mono (db : Triedb) {a a' : ℕ} (more : a ≤ a') {n n' : ℕ} (more' : n ≤ n')
    {h : ℕ} {t t' : Tables} (ran : readLevels db available a n h t = some t') :
    readLevels db available a' n' h t = some t' := by
  induction n generalizing n' h t with
  | zero => exact nomatch ran
  | succ n ih =>
    obtain ⟨n', rfl⟩ : ∃ k, n' = k + 1 := ⟨n' - 1, by omega⟩
    rw [readLevels] at ran ⊢
    split_ifs at ran ⊢ with empty
    · exact ran
    · obtain ⟨t₁, turns, ran⟩ := Option.bind_eq_some_iff.1 ran
      have lasting := Lasting.foldlM (f := fun n t r => readRoot db available n h t r)
        (fun t r => readRoot_lasting db h t r) (ascending (db.rootsAtHeight h)) t
      exact Option.bind_eq_some_iff.2
        ⟨t₁, lasting a a' t₁ more turns, ih (by omega) ran⟩

theorem init_lasting (tipFile : Option MetaId) (s : MetaStore) :
    Lasting (s.init available tipFile) := by
  refine Lasting.bind (x := fun n => readLevels (readRoots s.metaDb) available n n 0 {}) ?_
    fun t => .const _
  exact fun n n' t more ran => readLevels_mono _ more more ran

theorem length_storedBytes (e : StoredEntry) : (storedBytes e).length = serializationSize := by
  simp only [storedBytes, StoredEntry.write, List.length_append, length_beBytes,
    length_writeUint64, timeToBytes, MetaValidation.length_writeFlt, List.length_replicate]
  rfl

theorem Kept.entryRead (kept : Kept s m height) {db : Triedb} (holds : Holds db m height)
    {root : RootId} {h : ℕ} (at' : height root = some h) :
    ∃ x, Finds (fun n => readEntry db n h root) x ∧
      ∀ e, x = some e ↔ s.chains.lookup e.id = some e ∧ e.rootIdMeta.toNat = root := by
  have small := kept.layered.small root h at'
  have known : ∃ f, m root = some f := by
    rw [← Option.isSome_iff_exists, kept.holds.known_iff, at']
    rfl
  obtain ⟨f, known⟩ := known
  obtain ⟨found, ⟨n, enough⟩, -, data⟩ := holds.sound.answers root f known (UInt64.ofNat h)
  have key (e : StoredEntry) (atHeight : e.height.toNat = h) :
      e.height.toUInt64 = UInt64.ofNat h := by
    have same : e.height.toUInt64.toNat = e.height.toNat := UInt32.toNat_toUInt64 _
    rw [← atHeight, ← same, UInt64.ofNat_toNat]
  have stored (e : StoredEntry) (entry : s.chains.lookup e.id = some e)
      (own : e.rootIdMeta.toNat = root) :
      e.height.toNat = h ∧ f (UInt64.ofNat h) = some (storedBytes e) := by
    obtain ⟨-, -, -, atE, g, known', bytes⟩ := kept.recorded e.id e entry
    rw [own] at atE known'
    have atHeight := Option.some.inj (atE.symm.trans at')
    rw [key e atHeight, ← Option.some.inj (known.symm.trans known')] at bytes
    exact ⟨atHeight, bytes⟩
  cases found with
  | none =>
    refine ⟨none, ⟨n, ?_⟩, fun e => ⟨nofun, fun ⟨entry, own⟩ => ?_⟩⟩
    · exact Option.bind_eq_some_iff.2 ⟨none, enough n le_rfl, rfl⟩
    · rw [← data] at stored
      exact nomatch (stored e entry own).2
  | some leaf =>
    obtain ⟨id, e, entry, own⟩ := kept.owned root f h leaf.customData known at' data.symm
    have ownId := (kept.recorded id e entry).own
    rw [← ownId] at entry
    obtain ⟨atHeight, bytes⟩ := stored e entry own
    have leafBytes : leaf.customData = storedBytes e := Option.some.inj (data.trans bytes)
    have given : toRootId root = some e.rootIdMeta := by
      rw [← own, toRootId, if_pos e.rootIdMeta.toNat_lt, UInt64.ofNat_toNat]
    have heightBack : UInt32.ofNat h = e.height := by rw [← atHeight, UInt32.ofNat_toNat]
    refine ⟨some e, ⟨n, ?_⟩, fun e' => ?_⟩
    · refine Option.bind_eq_some_iff.2 ⟨some leaf, enough n le_rfl, ?_⟩
      dsimp only
      rw [leafBytes, if_neg (not_not.2 (length_storedBytes e)), given]
      change some (some _) = _
      rw [heightBack, read_storedBytes (kept.recorded e.id e entry).restorable]
    · constructor
      · intro same
        rw [← Option.some.inj same]
        exact ⟨entry, own⟩
      · rintro ⟨entry', own'⟩
        have ids := kept.sole entry entry' (own.trans own'.symm)
        rw [ids, entry'] at entry
        exact entry.symm

/-- The entries under the roots in `done` have been read. -/
structure Read (s : MetaStore) (done : RootId → Prop) (t : Tables) : Prop where
  chains : ∀ id e, t.chains.lookup id = some e ↔
    s.chains.lookup id = some e ∧ done e.rootIdMeta.toNat
  filed : ∀ h id, id ∈ (t.atHeight.lookup h).getD ∅ ↔
    ∃ e, t.chains.lookup id = some e ∧ e.height.toNat = h
  best : t.best = emptyEntry ∨ ∃ id, s.chains.lookup id = some t.best

theorem read_start (s : MetaStore) : Read s (fun _ => False) {} where
  chains _ _ := ⟨nofun, fun both => both.2.elim⟩
  filed _ id := by
    constructor
    · exact fun member => absurd member (Finset.notMem_empty id)
    · exact fun ⟨_, found, _⟩ => nomatch found
  best := .inl rfl

theorem Read.congr {done done' : RootId → Prop} {t : Tables} (read : Read s done t)
    (same : ∀ r, done r ↔ done' r) : Read s done' t := by
  obtain rfl : done = done' := funext fun r => propext (same r)
  exact read

theorem Read.enter {done : RootId → Prop} {t : Tables} (kept : Kept s m height)
    (read : Read s done t) {e : StoredEntry} (entry : s.chains.lookup e.id = some e) :
    Read s (fun r => done r ∨ r = e.rootIdMeta.toNat) (t.enter available e) := by
  have lookups (id : MetaId) : (insertNew t.chains e).lookup id =
      if id = e.id then some e else t.chains.lookup id := by
    rw [insertNew]
    cases found : t.chains.lookup e.id with
    | some e' =>
      rw [Option.isSome_some, if_pos rfl]
      split_ifs with here
      · have known := ((read.chains e.id e').1 found).1
        rw [here, found, ← known, entry]
      · rfl
    | none =>
      rw [Option.isSome_none, if_neg Bool.false_ne_true]
      exact lookup_insert_ite _ _ _ _
  refine ⟨?_, ?_, ?_⟩
  · intro id e'
    change (insertNew t.chains e).lookup id = some e' ↔ _
    rw [lookups]
    split_ifs with here
    · rw [here, entry]
      constructor
      · intro same
        rw [← Option.some.inj same]
        exact ⟨rfl, .inr rfl⟩
      · exact And.left
    · rw [read.chains]
      refine and_congr_right fun found => (or_iff_left fun shared => here ?_).symm
      exact kept.sole found entry shared
  · intro h id
    change id ∈ ((fileAt t.atHeight e.height.toNat e.id).lookup h).getD ∅ ↔
      ∃ e', (insertNew t.chains e).lookup id = some e' ∧ e'.height.toNat = h
    have heights (h : ℕ) : ((fileAt t.atHeight e.height.toNat e.id).lookup h).getD ∅ =
        if h = e.height.toNat then insert e.id ((t.atHeight.lookup h).getD ∅)
        else (t.atHeight.lookup h).getD ∅ := by
      rw [fileAt, lookup_insert_ite]
      split_ifs with atHeight
      · rw [atHeight]
        rfl
      · rfl
    rw [lookups, heights]
    by_cases here : id = e.id
    · simp only [if_pos here, Option.some.injEq, exists_eq_left']
      split_ifs with atHeight
      · rw [here, atHeight]
        exact ⟨fun _ => rfl, fun _ => Finset.mem_insert_self _ _⟩
      · constructor
        · intro member
          obtain ⟨e', found, sameHeight⟩ := (read.filed h id).1 member
          have known := ((read.chains id e').1 found).1
          rw [here, entry] at known
          rw [Option.some.inj known]
          exact sameHeight
        · exact fun atE => absurd atE.symm atHeight
    · simp only [if_neg here, ← read.filed]
      split_ifs with atHeight
      · rw [Finset.mem_insert]
        exact or_iff_right here
      · exact Iff.rfl
  · rw [Tables.enter]
    split_ifs
    · exact .inr ⟨e.id, entry⟩
    · exact read.best

theorem Kept.rootRead (kept : Kept s m height) (available : StoredEntry → Bool)
    {db : Triedb} (holds : Holds db m height)
    {done : RootId → Prop} {t : Tables} (read : Read s done t) {root : RootId} {h : ℕ}
    (at' : height root = some h) : ∃ t', Finds (fun n => readRoot db available n h t root) t' ∧
      Read s (fun r => done r ∨ r = root) t' := by
  obtain ⟨x, ⟨n, found⟩, owner⟩ := kept.entryRead holds at'
  cases x with
  | none =>
    refine ⟨t, ⟨n, Option.bind_eq_some_iff.2 ⟨none, found, rfl⟩⟩, ⟨?_, read.filed, read.best⟩⟩
    intro id e
    rw [read.chains]
    refine and_congr_right fun entry => (or_iff_left fun own => ?_).symm
    rw [← (kept.recorded id e entry).own] at entry
    exact nomatch (owner e).2 ⟨entry, own⟩
  | some e =>
    obtain ⟨entry, own⟩ := (owner e).1 rfl
    refine ⟨t.enter available e, ⟨n, Option.bind_eq_some_iff.2 ⟨some e, found, ?_⟩⟩, ?_⟩
    · dsimp only
      rw [if_neg (kept.recorded e.id e entry).nonzero]
      rfl
    · rw [← own]
      exact read.enter kept entry

theorem Kept.levelRead (kept : Kept s m height) (available : StoredEntry → Bool)
    {db : Triedb} (holds : Holds db m height) {h : ℕ}
    (l : List RootId) (all : ∀ r ∈ l, height r = some h) {done : RootId → Prop} {t : Tables}
    (read : Read s done t) : ∃ t', Finds (fun n => l.foldlM (readRoot db available n h) t) t' ∧
      Read s (fun r => done r ∨ r ∈ l) t' := by
  induction l generalizing done t with
  | nil => exact ⟨t, ⟨0, rfl⟩, read.congr fun r => (or_iff_left List.not_mem_nil).symm⟩
  | cons root l ih =>
    obtain ⟨t₁, first, read₁⟩ := kept.rootRead available holds read (all root List.mem_cons_self)
    obtain ⟨t', later, read'⟩ := ih (fun r mem => all r (List.mem_cons_of_mem root mem)) read₁
    refine ⟨t', ?_, read'.congr fun r => ?_⟩
    · simp only [List.foldlM_cons]
      exact finds_bind (readRoot_lasting db h t root)
        (Lasting.foldlM (f := fun n t r => readRoot db available n h t r)
          (fun t r => readRoot_lasting db h t r) l t₁) first later
    · rw [List.mem_cons, or_assoc]

theorem Layered.descend (layered : Layered m height) {r : RootId} {h j : ℕ}
    (at' : height r = some (h + j)) : ∃ r', height r' = some h := by
  induction j generalizing r with
  | zero => exact ⟨r, at'⟩
  | succ j ih =>
    obtain ⟨r', below⟩ := layered.parent r (h + j) at'
    exact ih below

theorem Kept.levelsRead (kept : Kept s m height) (available : StoredEntry → Bool)
    {db : Triedb} (holds : Holds db m height) {h : ℕ}
    {t : Tables} (read : Read s (fun r => ∃ k < h, height r = some k) t) :
    ∃ a n t', readLevels db available a n h t = some t' ∧
      Read s (fun r => (height r).isSome = true) t' := by
  induction left : 2 ^ 32 - h using Nat.strong_induction_on generalizing h t with
  | _ k ih =>
    by_cases empty : db.rootsAtHeight h = ∅
    · refine ⟨0, 1, t, ?_, read.congr fun r => ⟨?_, fun known => ?_⟩⟩
      · rw [readLevels, if_pos empty]
      · rintro ⟨k, -, at'⟩
        rw [at']
        rfl
      · obtain ⟨k, at'⟩ := Option.isSome_iff_exists.1 known
        refine ⟨k, lt_of_not_ge fun above => ?_, at'⟩
        obtain ⟨j, rfl⟩ := Nat.exists_eq_add_of_le above
        obtain ⟨r', here⟩ := kept.layered.descend at'
        rw [← holds.mem_rootsAtHeight, empty] at here
        exact absurd here (Finset.notMem_empty r')
    · obtain ⟨r, member⟩ := Finset.nonempty_iff_ne_empty.2 empty
      have small := kept.layered.small r h ((holds.mem_rootsAtHeight h r).1 member)
      obtain ⟨t₁, ⟨a, turns⟩, read₁⟩ := kept.levelRead available holds
        (ascending (db.rootsAtHeight h))
        (fun r mem => (holds.mem_rootsAtHeight h r).1 (mem_ascending.1 mem)) read
      have read₂ : Read s (fun r => ∃ k < h + 1, height r = some k) t₁ := by
        refine read₁.congr fun r => ?_
        rw [mem_ascending, holds.mem_rootsAtHeight]
        constructor
        · rintro (⟨k, below, at'⟩ | at')
          · exact ⟨k, by omega, at'⟩
          · exact ⟨h, by omega, at'⟩
        · rintro ⟨k, below, at'⟩
          rcases Nat.lt_succ_iff_lt_or_eq.1 below with below | rfl
          · exact .inl ⟨k, below, at'⟩
          · exact .inr at'
      obtain ⟨a', n, t', ran, read'⟩ := ih (2 ^ 32 - (h + 1)) (by omega) read₂ rfl
      refine ⟨max a a', n + 1, t', ?_, read'⟩
      rw [readLevels, if_neg empty]
      have lasting := Lasting.foldlM (f := fun n t r => readRoot db available n h t r)
        (fun t r => readRoot_lasting db h t r) (ascending (db.rootsAtHeight h)) t
      exact Option.bind_eq_some_iff.2 ⟨t₁, lasting a _ t₁ (le_max_left a a') turns,
        readLevels_mono db (le_max_right a a') le_rfl ran⟩

theorem Kept.init (kept : Kept s m height) (available : StoredEntry → Bool)
    (tipFile : Option MetaId) :
    ∃ s', Finds (s.init available tipFile) s' ∧ s'.chains = s.chains ∧
      (∀ h, level s' h = level s h) ∧ Kept s' m height := by
  obtain ⟨holds, -⟩ := kept.holds.reopen
  have start : Read s (fun r => ∃ k < 0, height r = some k) {} :=
    (read_start s).congr fun r =>
      ⟨False.elim, fun ⟨_, below, _⟩ => absurd below (Nat.not_lt_zero _)⟩
  obtain ⟨a, n, t, ran, read⟩ := kept.levelsRead available holds start
  have chains : t.chains = s.chains := by
    apply Finmap.ext_lookup
    intro id
    ext e
    rw [read.chains]
    refine and_iff_left_of_imp fun found => ?_
    rw [(kept.recorded id e found).height]
    rfl
  have levels (h : ℕ) : (t.atHeight.lookup h).getD ∅ = level s h := by
    ext id
    rw [read.filed, kept.filed, chains]
  refine ⟨_, ⟨max a n, Option.bind_eq_some_iff.2 ⟨t, readLevels_mono _ (le_max_left a n)
    (le_max_right a n) ran, rfl⟩⟩, chains, levels, ?_⟩
  have tip : Linked s.chains ((tipFile.bind t.chains.lookup).getD t.best) ∧
      (((tipFile.bind t.chains.lookup).getD t.best).rootIdMeta ≠ 0 →
        height ((tipFile.bind t.chains.lookup).getD t.best).rootIdMeta.toNat =
          some ((tipFile.bind t.chains.lookup).getD t.best).height.toNat) := by
    rw [chains]
    cases chosen : tipFile.bind s.chains.lookup with
    | some e =>
      obtain ⟨id, -, found⟩ := Option.bind_eq_some_iff.1 chosen
      exact ⟨kept.linked id e found, fun _ => (kept.recorded id e found).height⟩
    | none =>
      rw [Option.getD_none]
      rcases read.best with none | ⟨id, found⟩
      · rw [none]
        exact ⟨.inl ⟨rfl, rfl⟩, fun nonzero => absurd rfl nonzero⟩
      · exact ⟨kept.linked id _ found, fun _ => (kept.recorded id _ found).height⟩
  obtain ⟨chains', atHeight, best⟩ := t
  obtain rfl : chains' = s.chains := chains
  refine ⟨holds, kept.layered, kept.recorded, kept.owned, kept.linked, fun h id => ?_, tip.1, tip.2⟩
  exact (congrArg (id ∈ ·) (levels h)).to_iff.trans (kept.filed h id)

theorem Kept.wellFormed (kept : Kept s m height) : WellFormed s := by
  refine ⟨kept.linked, kept.filed, fun available tipFile => ?_⟩
  obtain ⟨s', ⟨n, ran⟩, chains, levels, -⟩ := kept.init available tipFile
  exact ⟨n, fun fuel more => ⟨s', init_lasting tipFile s n fuel s' more ran, chains, levels⟩⟩

end Reopening

section Forest

variable {P : TriedbParams} {validatePow : MetaId → Flt1648 → PowProof → Bool}

theorem Kept.step {s s' : MetaStore} {m : Versions} {height : RootId → Option ℕ}
    (kept : Kept s m height) {op : Op} (clean : Clean validatePow s op)
    (ran : step P validatePow s op = some s') : ∃ m' height', Kept s' m' height' := by
  cases op with
  | advance version time roots => exact kept.advance clean ran
  | updateTip id => exact kept.updateTip clean.1 clean.2 ran
  | putMeta term => exact kept.putMeta clean ran
  | updateMetaEntry e =>
    obtain ⟨restorable, old, found, previous, sameHeight, sameRoot⟩ := clean
    exact kept.rewrite restorable found previous sameHeight sameRoot ran
  | setTip id =>
    rw [← Option.some.inj ran, MetaStore.setTip]
    cases found : s.chains.lookup id with
    | none => exact ⟨m, height, kept⟩
    | some e => exact ⟨m, height, kept.withEntry found⟩
  | init available tipFile fuel =>
    obtain ⟨s₁, found, -, -, kept₁⟩ := kept.init available tipFile
    rw [← found.unique (init_lasting tipFile s) ⟨fuel, ran⟩]
    exact ⟨m, height, kept₁⟩

theorem Kept.run {s s' : MetaStore} {m : Versions} {height : RootId → Option ℕ}
    (kept : Kept s m height) {ops : List Op} (clean : CleanRun P validatePow s ops)
    (ran : run P validatePow s ops = some s') : ∃ m' height', Kept s' m' height' := by
  induction ops generalizing s m height with
  | nil =>
    rw [← Option.some.inj ran]
    exact ⟨m, height, kept⟩
  | cons op ops ih =>
    obtain ⟨s₁, stepped, ran⟩ := Option.bind_eq_some_iff.1 ran
    obtain ⟨m₁, height₁, kept₁⟩ := kept.step clean.1 stepped
    exact ih kept₁ (clean.2 s₁ stepped) ran

/-- Every state that clean steps reach is a forest that comes back. -/
theorem forest_survives (P : TriedbParams) (validatePow : MetaId → Flt1648 → PowProof → Bool)
    (ops : List Op) (s : MetaStore) (clean : CleanRun P validatePow {} ops)
    (ran : run P validatePow {} ops = some s) : WellFormed s := by
  obtain ⟨m, height, kept⟩ := kept_empty.run clean ran
  exact kept.wellFormed

/-- Every proof of work is taken. -/
def anyPow (_ : MetaId) (_ : Flt1648) (_ : PowProof) : Bool := true

/-- The first entry of a chain, at a time -/
def genesisRun (time : UInt64) : List Op := [.advance 1 time emptyEntry, .updateTip 1]

/-- A term of a peer without a previous entry, at the height 5 -/
def orphanRun : List Op := [.putMeta (.meta1 [.id (.big 256 1), .height (.int 5)])]

/-- The entry with the id 1 -/
def firstEntry (s : Option MetaStore) : Option StoredEntry := s.bind fun s => s.chains.lookup 1

theorem genesisRun_clean : CleanRun plainParams anyPow {} (genesisRun 0) := by
  refine ⟨.inl ⟨rfl, rfl, rfl⟩, fun s' stepped => ⟨⟨?_, fun _ => ⟨by decide, ?_, fun _ => ?_⟩⟩,
    fun _ _ => trivial⟩⟩
  all_goals
    obtain ⟨r, db, created, made⟩ := advance_some stepped
    rw [made]
  · intro existing found
    exact nomatch (Finmap.lookup_empty (1 : MetaId)).symm.trans found
  · exact ⟨rfl, rfl⟩
  · have here : ((newMetaRoot plainParams none {}).map fun x =>
        decide (x.2.rootsPos = x.2.rootsEnd)) = some true := by decide
    have made' : newMetaRoot plainParams none {} = some (r, db) := created
    rw [made'] at here
    exact of_decide_eq_true (Option.some.inj here)

/-- A chain that starts at the epoch comes back. -/
theorem genesis_survives : ∃ s, run plainParams anyPow {} (genesisRun 0) = some s ∧
    (firstEntry (some s)).map (·.height) = some 0 ∧ WellFormed s := by
  have returns : (run plainParams anyPow {} (genesisRun 0)).isSome = true := by decide +kernel
  obtain ⟨s, ran⟩ := Option.isSome_iff_exists.1 returns
  have entry : (firstEntry (run plainParams anyPow {} (genesisRun 0))).map (·.height) = some 0 := by
    decide +kernel
  rw [ran] at entry
  exact ⟨s, ran, entry, forest_survives plainParams anyPow (genesisRun 0) s genesisRun_clean ran⟩

/-- A peer's entry without a previous one is added far above the genesis entries, and an entry of
three microseconds after the epoch comes back with another time. -/
theorem orphan_and_late_not_well_formed :
    (∃ s, run plainParams anyPow {} orphanRun = some s ∧ ¬ WellFormed s) ∧
      ∃ s, run plainParams anyPow {} (genesisRun 3) = some s ∧ ¬ WellFormed s := by
  constructor
  · have facts : (firstEntry (run plainParams anyPow {} orphanRun)).map
        (fun e => (e.previousId, e.height)) = some (0, 5) := by decide +kernel
    obtain ⟨e, atE, pair⟩ := Option.map_eq_some_iff.1 facts
    obtain ⟨s, ran, found⟩ := Option.bind_eq_some_iff.1 atE
    refine ⟨s, ran, fun wellFormed => ?_⟩
    obtain ⟨noPrevious, high⟩ := Prod.mk.inj pair
    have root : ((run plainParams anyPow {} orphanRun).map fun s => s.chains.lookup 0) =
        some none := by decide +kernel
    rw [ran] at root
    rcases wellFormed.linked 1 e found with genesis | ⟨p, above, _⟩
    · exact absurd (high.symm.trans genesis.2) (by decide)
    · have none_there : s.chains.lookup 0 = none := Option.some.inj root
      rw [noPrevious, none_there] at above
      exact nomatch above
  · have facts : (firstEntry (run plainParams anyPow {} (genesisRun 3))).map (·.timestamp) =
        some 3 := by decide +kernel
    obtain ⟨e, atE, time⟩ := Option.map_eq_some_iff.1 facts
    obtain ⟨s, ran, found⟩ := Option.bind_eq_some_iff.1 atE
    refine ⟨s, ran, fun wellFormed => ?_⟩
    have again : (firstEntry ((run plainParams anyPow {} (genesisRun 3)).bind fun s =>
        s.init (fun _ => true) none 40)).map (·.timestamp) = some 768 := by decide +kernel
    rw [ran] at again
    obtain ⟨e', atE', time'⟩ := Option.map_eq_some_iff.1 again
    obtain ⟨s', ran', found'⟩ := Option.bind_eq_some_iff.1 atE'
    obtain ⟨n, enough⟩ := wellFormed.restored (fun _ => true) none
    obtain ⟨s'', ran'', same, -⟩ := enough n le_rfl
    have agree : s'' = s' := Finds.unique (init_lasting none s) ⟨n, ran''⟩ ⟨40, ran'⟩
    rw [← agree, same, found] at found'
    rw [← Option.some.inj found', time] at time'
    exact absurd time' (by decide)

end Forest

end Epilog.Global.MetaForest
