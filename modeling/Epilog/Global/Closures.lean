/- Module: Epilog/Global/Closures
   source: src/src/global/global_interpreter.cpp (frozen closures), src/src/global/global.hpp
   digest: The overlay of frozen closures against a finite map of live closures. -/

import Epilog.Common.Term
import Epilog.Lib.FiniteMap
import Mathlib.Data.Finset.Sort

set_option autoImplicit false

namespace Epilog.Global.Closures

open Epilog.Common.Bits Epilog.Common.Term Epilog.Common.Term.Cell Epilog.Lib.FiniteMap

/-- A map whose keys are heap addresses. -/
abbrev AddrMap (β : Type) := FMap ℕ β

/-- What `freeze/2` stores at an address: a structure. -/
abbrev Closure := { c : Cell // c.tag = .STR }

inductive Failure
  | removeMissing
  deriving DecidableEq, Repr

/-- The closure database below the closure root, and the changes since the last commit. -/
structure ClosureState where
  closureDb : AddrMap Bytes
  modifiedClosures : AddrMap Cell
  newFrozenClosures : ℤ

/-- `term()`, the mark of a removed closure -/
def none' : Cell := ⟨0⟩

section Database

def dbGetClosure (db : AddrMap Bytes) (addr : ℕ) : Cell :=
  match db.lookup addr with
  | none => EMPTY_LIST
  | some data => ⟨readUint64 data⟩

/-- The removal of a missing key throws. -/
def dbRemoveClosure (db : AddrMap Bytes) (addr : ℕ) : Except Failure (AddrMap Bytes) :=
  if addr ∈ db then .ok (db.erase addr) else .error .removeMissing

def dbSetClosure (db : AddrMap Bytes) (addr : ℕ) (t : Cell) : AddrMap Bytes :=
  db.insert addr (writeUint64 t.raw)

def dbNumFrozenClosures (db : AddrMap Bytes) : ℕ := db.keys.card

end Database

section Overlay

def getFrozenClosure (s : ClosureState) (addr : ℕ) : Cell :=
  match s.modifiedClosures.lookup addr with
  | some closure => closure
  | none => dbGetClosure s.closureDb addr

def clearFrozenClosure (s : ClosureState) (addr : ℕ) : ClosureState :=
  let cl := getFrozenClosure s addr
  if cl = EMPTY_LIST then s
  else if addr ∈ s.modifiedClosures then
    { s with
      newFrozenClosures := s.newFrozenClosures - 1
      modifiedClosures := s.modifiedClosures.erase addr }
  else
    { s with
      modifiedClosures := s.modifiedClosures.insert addr none'
      newFrozenClosures := s.newFrozenClosures - 1 }

def setFrozenClosure (s : ClosureState) (addr : ℕ) (closure : Closure) : ClosureState :=
  { s with
    modifiedClosures := s.modifiedClosures.insert addr closure
    newFrozenClosures := s.newFrozenClosures + 1 }

/-- One turn of the loop of `commit_closures`. -/
def commitClosure (modified : AddrMap Cell) (db : AddrMap Bytes) (addr : ℕ) :
    Except Failure (AddrMap Bytes) :=
  match modified.lookup addr with
  | none => .ok db
  | some cl => if cl = none' then dbRemoveClosure db addr else .ok (dbSetClosure db addr cl)

/-- The loop runs over the addresses in ascending order. -/
def commitClosures (s : ClosureState) : Except Failure ClosureState := do
  let db ← (s.modifiedClosures.keys.sort (· ≤ ·)).foldlM (commitClosure s.modifiedClosures)
    s.closureDb
  return { closureDb := db, modifiedClosures := ∅, newFrozenClosures := 0 }

def numFrozenClosures (s : ClosureState) : ℤ :=
  dbNumFrozenClosures s.closureDb + s.newFrozenClosures

/-- An interpreter that has just opened the database. -/
def opened (db : AddrMap Bytes) : ClosureState :=
  { closureDb := db, modifiedClosures := ∅, newFrozenClosures := 0 }

end Overlay

section Commit

/-- What the entry of the overlay at an address makes of the leaf there. -/
def overlaid (modified : AddrMap Cell) (db : AddrMap Bytes) (addr : ℕ) : Option Bytes :=
  match modified.lookup addr with
  | none => db.lookup addr
  | some cl => if cl = none' then none else some (writeUint64 cl.raw)

private theorem commitClosure_ok {modified : AddrMap Cell} {db : AddrMap Bytes} {addr : ℕ}
    (present : modified.lookup addr = some none' → addr ∈ db) :
    ∃ db', commitClosure modified db addr = .ok db' ∧
      ∀ a, db'.lookup a = if a = addr then overlaid modified db addr else db.lookup a := by
  rcases entry : modified.lookup addr with _ | cl
  · refine ⟨db, by simp only [commitClosure, entry], fun a => ?_⟩
    simp only [overlaid, entry]
    split
    case isTrue same => rw [same]
    case isFalse => rfl
  · by_cases removed : cl = none'
    · have held : addr ∈ db := present (by rw [entry, removed])
      refine ⟨db.erase addr, by simp [commitClosure, entry, removed, dbRemoveClosure, held],
        fun a => ?_⟩
      simp only [overlaid, entry, removed, if_true]
      exact lookup_erase_ite db addr a
    · refine ⟨dbSetClosure db addr cl, by simp [commitClosure, entry, removed], fun a => ?_⟩
      simp only [overlaid, entry, removed, if_false]
      exact lookup_insert_ite db addr a _

private theorem foldlM_commitClosure (modified : AddrMap Cell) (addrs : List ℕ)
    (distinct : addrs.Nodup) (db : AddrMap Bytes)
    (present : ∀ a ∈ addrs, modified.lookup a = some none' → a ∈ db) :
    ∃ db', addrs.foldlM (commitClosure modified) db = .ok db' ∧
      ∀ a, db'.lookup a = if a ∈ addrs then overlaid modified db a else db.lookup a := by
  induction addrs generalizing db with
  | nil => exact ⟨db, rfl, fun a => by simp⟩
  | cons addr addrs ih =>
    obtain ⟨fresh, distinct⟩ := List.nodup_cons.1 distinct
    obtain ⟨db₁, turn, now⟩ := commitClosure_ok (present addr List.mem_cons_self)
    have present₁ : ∀ a ∈ addrs, modified.lookup a = some none' → a ∈ db₁ := by
      intro a among removed
      have other : a ≠ addr := fun same => fresh (same ▸ among)
      have held := present a (List.mem_cons_of_mem _ among) removed
      rw [← Finmap.lookup_isSome] at held ⊢
      rw [now, if_neg other]
      exact held
    obtain ⟨db', rest, after⟩ := ih distinct db₁ present₁
    refine ⟨db', by rw [List.foldlM_cons, turn]; exact rest, fun a => ?_⟩
    simp only [after, List.mem_cons]
    by_cases among : a ∈ addrs
    · have other : a ≠ addr := fun same => fresh (same ▸ among)
      simp only [among, if_true, or_true, overlaid, now, other, if_false]
    · simp only [among, if_false, or_false, now]
      split
      case isTrue same => rw [same]
      case isFalse => rfl

theorem commitClosures_ok {s : ClosureState}
    (present : ∀ a, s.modifiedClosures.lookup a = some none' → a ∈ s.closureDb) :
    ∃ db', commitClosures s = .ok (opened db') ∧
      ∀ a, db'.lookup a = overlaid s.modifiedClosures s.closureDb a := by
  obtain ⟨db', loop, after⟩ := foldlM_commitClosure s.modifiedClosures
    (s.modifiedClosures.keys.sort (· ≤ ·)) (Finset.sort_nodup _ _) s.closureDb
    (fun a _ => present a)
  refine ⟨db', by unfold commitClosures; rw [loop]; rfl, fun a => ?_⟩
  simp only [after, Finset.mem_sort, Finmap.mem_keys]
  split
  case isTrue => rfl
  case isFalse absent =>
    rw [← Finmap.lookup_eq_none] at absent
    simp only [overlaid, absent]

end Commit

section Abstract

inductive Op
  | set (addr : ℕ) (closure : Closure)
  | clear (addr : ℕ)
  | get (addr : ℕ)
  | commit

def step (s : ClosureState) : Op → Except Failure ClosureState
  | .set addr closure => .ok (setFrozenClosure s addr closure)
  | .clear addr => .ok (clearFrozenClosure s addr)
  | .get _ => .ok s
  | .commit => commitClosures s

/-- The finite map the overlay stands for: the live closures. -/
abbrev Live := AddrMap Closure

def Live.step (m : Live) : Op → Live
  | .set addr closure => m.insert addr closure
  | .clear addr => m.erase addr
  | .get _ => m
  | .commit => m

/-- The database holds exactly the closures of `m`. -/
def Holds (db : AddrMap Bytes) (m : Live) : Prop :=
  ∀ addr, db.lookup addr = (m.lookup addr).map fun closure => writeUint64 closure.val.raw

/-- Every call of `get_frozen_closure` and the count answer for `m`. -/
def Agrees (s : ClosureState) (m : Live) : Prop :=
  (∀ addr, getFrozenClosure s addr = ((m.lookup addr).map Subtype.val).getD EMPTY_LIST) ∧
    numFrozenClosures s = m.keys.card

/-- Along the run the answers agree with the map, and every commit writes the map. -/
def RefinesMap : ClosureState → Live → List Op → Prop
  | s, m, [] => Agrees s m
  | s, m, op :: ops => Agrees s m ∧ ∃ s', step s op = .ok s' ∧
      (op = .commit → Holds s'.closureDb m) ∧ RefinesMap s' (m.step op) ops

/-- Closures are set at free addresses only, and no address is cleared that held a closure at
the last commit. `live` are the addresses in use, `stored` those at the last commit. -/
def Allowed : (live stored : Finset ℕ) → List Op → Prop
  | _, _, [] => True
  | live, stored, .set addr _ :: ops => addr ∉ live ∧ Allowed (insert addr live) stored ops
  | live, stored, .clear addr :: ops => addr ∉ stored ∧ Allowed (live.erase addr) stored ops
  | live, stored, .get _ :: ops => Allowed live stored ops
  | live, _, .commit :: ops => Allowed live live ops

theorem RefinesMap.agrees {s : ClosureState} {m : Live} {ops : List Op}
    (refines : RefinesMap s m ops) : Agrees s m := by
  cases ops with
  | nil => exact refines
  | cons op ops => exact refines.1

end Abstract

section Tracks

theorem Closure.ne_emptyList (closure : Closure) : closure.val ≠ EMPTY_LIST := by
  intro same
  have con := closure.property
  rw [same] at con
  exact absurd con (by decide)

theorem Closure.ne_none (closure : Closure) : closure.val ≠ none' := by
  intro same
  have con := closure.property
  rw [same] at con
  exact absurd con (by decide)

/-- The invariant of an allowed run: the database holds the closures of the last commit, all of
them still live, and the overlay holds the others, without marks. -/
structure Tracks (s : ClosureState) (m : Live) (stored : Finset ℕ) : Prop where
  live : stored ⊆ m.keys
  database : ∀ a, s.closureDb.lookup a = if a ∈ stored then
    (m.lookup a).map fun closure => writeUint64 closure.val.raw else none
  overlay : ∀ a, s.modifiedClosures.lookup a = if a ∈ stored then none else
    (m.lookup a).map Subtype.val
  counter : s.newFrozenClosures = m.keys.card - stored.card

namespace Tracks

variable {s : ClosureState} {m : Live} {stored : Finset ℕ}

theorem opened_holds {db : AddrMap Bytes} (holds : Holds db m) : Tracks (opened db) m m.keys where
  live := Finset.Subset.refl _
  database a := by
    rw [opened, holds a]
    split
    case isTrue => rfl
    case isFalse absent =>
      rw [Finmap.mem_keys, ← Finmap.lookup_eq_none] at absent
      rw [absent, Option.map_none]
  overlay a := by
    rw [opened, Finmap.lookup_empty]
    split
    case isTrue => rfl
    case isFalse absent =>
      rw [Finmap.mem_keys, ← Finmap.lookup_eq_none] at absent
      rw [absent, Option.map_none]
  counter := by simp [opened]

private theorem database_keys (tracks : Tracks s m stored) : s.closureDb.keys = stored := by
  ext a
  rw [Finmap.mem_keys, ← Finmap.lookup_isSome, tracks.database]
  split
  case isTrue among =>
    have live : (m.lookup a).isSome = true :=
      Finmap.lookup_isSome.2 (Finmap.mem_keys.1 (tracks.live among))
    simp [live, among]
  case isFalse absent => simp [absent]

theorem agrees (tracks : Tracks s m stored) : Agrees s m := by
  constructor
  · intro a
    by_cases among : a ∈ stored
    · obtain ⟨closure, found⟩ := Finmap.mem_iff.1 (Finmap.mem_keys.1 (tracks.live among))
      simp [getFrozenClosure, dbGetClosure, tracks.overlay, tracks.database, among, found]
    · rcases found : m.lookup a with _ | closure <;>
        simp [getFrozenClosure, dbGetClosure, tracks.overlay, tracks.database, among, found]
  · rw [numFrozenClosures, dbNumFrozenClosures, tracks.database_keys, tracks.counter]
    omega

theorem set (tracks : Tracks s m stored) {addr : ℕ} (closure : Closure) (free : addr ∉ m.keys) :
    Tracks (setFrozenClosure s addr closure) (m.insert addr closure) stored := by
  have unstored : addr ∉ stored := fun among => free (tracks.live among)
  refine ⟨?_, fun a => ?_, fun a => ?_, ?_⟩
  · rw [keys_insert]
    exact tracks.live.trans (Finset.subset_insert _ _)
  · rw [setFrozenClosure, tracks.database, lookup_insert_ite]
    grind
  · rw [setFrozenClosure, lookup_insert_ite, lookup_insert_ite, tracks.overlay]
    grind
  · rw [setFrozenClosure, keys_insert, Finset.card_insert_of_notMem free, tracks.counter]
    push_cast
    omega

theorem clear (tracks : Tracks s m stored) {addr : ℕ} (unstored : addr ∉ stored) :
    Tracks (clearFrozenClosure s addr) (m.erase addr) stored := by
  have closure := tracks.agrees.1 addr
  have entry := tracks.overlay addr
  rw [if_neg unstored] at entry
  rcases found : m.lookup addr with _ | c
  · -- nothing is live there: the call and the abstract step change nothing
    rw [found] at closure
    rw [erase_of_lookup_none found, clearFrozenClosure, if_pos (by exact closure)]
    exact tracks
  · rw [found] at closure entry
    have live : addr ∈ m.keys := Finmap.mem_keys.2 (Finmap.mem_of_lookup_eq_some found)
    have frozen : getFrozenClosure s addr ≠ EMPTY_LIST := closure ▸ Closure.ne_emptyList c
    have modified : addr ∈ s.modifiedClosures := Finmap.mem_of_lookup_eq_some entry
    rw [clearFrozenClosure, if_neg frozen, if_pos modified]
    refine ⟨?_, fun a => ?_, fun a => ?_, ?_⟩
    · rw [Finmap.keys_erase]
      exact fun a among => Finset.mem_erase.2 ⟨fun same => unstored (same ▸ among),
        tracks.live among⟩
    · rw [tracks.database, lookup_erase_ite]
      grind
    · rw [lookup_erase_ite, lookup_erase_ite, tracks.overlay]
      grind
    · have some_live : 0 < m.keys.card := Finset.card_pos.2 ⟨addr, live⟩
      rw [Finmap.keys_erase, Finset.card_erase_of_mem live]
      simp only [tracks.counter]
      omega

theorem commit (tracks : Tracks s m stored) :
    ∃ db, commitClosures s = .ok (opened db) ∧ Holds db m := by
  have unmarked : ∀ a, s.modifiedClosures.lookup a ≠ some none' := by
    intro a marked
    rw [tracks.overlay] at marked
    split at marked
    case isTrue => exact nomatch marked
    case isFalse =>
      obtain ⟨c, -, mark⟩ := Option.map_eq_some_iff.1 marked
      exact Closure.ne_none c mark
  obtain ⟨db, written, after⟩ := commitClosures_ok (s := s) fun a marked =>
    absurd marked (unmarked a)
  refine ⟨db, written, fun a => ?_⟩
  rw [after, overlaid, tracks.overlay, tracks.database]
  by_cases among : a ∈ stored
  · simp only [among, if_true]
  · rcases found : m.lookup a with _ | c
    · simp only [among, if_false, Option.map_none]
    · simp only [among, if_false, Option.map_some, Closure.ne_none c]

end Tracks

end Tracks

section Runs

private theorem not_agrees_set {s : ClosureState} {m : Live} {stored : Finset ℕ}
    (tracks : Tracks s m stored) {addr : ℕ} (closure : Closure) (live : addr ∈ m.keys) :
    ¬ Agrees (setFrozenClosure s addr closure) (m.insert addr closure) := by
  rintro ⟨-, count⟩
  have before := tracks.agrees.2
  have same : (Finmap.insert addr closure m).keys = m.keys := by
    rw [keys_insert, Finset.insert_eq_of_mem live]
  rw [same, ← before] at count
  simp only [numFrozenClosures, setFrozenClosure] at count
  omega

private theorem not_agrees_clear {s : ClosureState} {m : Live} {stored : Finset ℕ}
    (tracks : Tracks s m stored) {addr : ℕ} (among : addr ∈ stored) :
    ¬ Agrees (clearFrozenClosure s addr) (m.erase addr) := by
  rintro ⟨answers, -⟩
  obtain ⟨c, found⟩ := Finmap.mem_iff.1 (Finmap.mem_keys.1 (tracks.live among))
  have frozen : getFrozenClosure s addr ≠ EMPTY_LIST := by
    rw [tracks.agrees.1 addr, found]
    exact Closure.ne_emptyList c
  have unmodified : addr ∉ s.modifiedClosures := by
    rw [← Finmap.lookup_eq_none, tracks.overlay, if_pos among]
  have answer := answers addr
  rw [clearFrozenClosure, if_neg frozen, if_neg unmodified, getFrozenClosure,
    Finmap.lookup_insert, Finmap.lookup_erase] at answer
  have mark_ne : none' ≠ EMPTY_LIST := by decide
  exact mark_ne answer

private theorem refines_iff (ops : List Op) {s : ClosureState} {m : Live} {stored : Finset ℕ}
    (tracks : Tracks s m stored) : RefinesMap s m ops ↔ Allowed m.keys stored ops := by
  induction ops generalizing s m stored with
  | nil => exact ⟨fun _ => trivial, fun _ => tracks.agrees⟩
  | cons op ops ih =>
    cases op with
    | set addr closure =>
      rw [Allowed, ← keys_insert m addr closure]
      constructor
      · rintro ⟨-, s', reached, -, rest⟩
        obtain rfl : setFrozenClosure s addr closure = s' := Except.ok.inj reached
        have free : addr ∉ m.keys := fun live => not_agrees_set tracks closure live rest.agrees
        exact ⟨free, (ih (tracks.set closure free)).1 rest⟩
      · rintro ⟨free, rest⟩
        exact ⟨tracks.agrees, _, rfl, fun impossible => (nomatch impossible),
          (ih (tracks.set closure free)).2 rest⟩
    | clear addr =>
      rw [Allowed, ← Finmap.keys_erase addr m]
      constructor
      · rintro ⟨-, s', reached, -, rest⟩
        obtain rfl : clearFrozenClosure s addr = s' := Except.ok.inj reached
        have unstored : addr ∉ stored := fun among => not_agrees_clear tracks among rest.agrees
        exact ⟨unstored, (ih (tracks.clear unstored)).1 rest⟩
      · rintro ⟨unstored, rest⟩
        exact ⟨tracks.agrees, _, rfl, fun impossible => (nomatch impossible),
          (ih (tracks.clear unstored)).2 rest⟩
    | get addr =>
      rw [Allowed]
      constructor
      · rintro ⟨-, s', reached, -, rest⟩
        obtain rfl : s = s' := Except.ok.inj reached
        exact (ih tracks).1 rest
      · intro rest
        exact ⟨tracks.agrees, _, rfl, fun impossible => (nomatch impossible), (ih tracks).2 rest⟩
    | commit =>
      rw [Allowed]
      obtain ⟨db, written, holds⟩ := tracks.commit
      constructor
      · rintro ⟨-, s', reached, -, rest⟩
        obtain rfl : opened db = s' := Except.ok.inj (written.symm.trans reached)
        exact (ih (Tracks.opened_holds holds)).1 rest
      · intro rest
        exact ⟨tracks.agrees, _, written, fun _ => holds,
          (ih (Tracks.opened_holds holds)).2 rest⟩

/-- The overlay refines the map of live closures along a run exactly when closures are set at
free addresses and no closure of the last commit is cleared. -/
theorem closures_refined_iff (db : AddrMap Bytes) (m : Live) (holds : Holds db m)
    (ops : List Op) : RefinesMap (opened db) m ops ↔ Allowed m.keys m.keys ops :=
  refines_iff ops (Tracks.opened_holds holds)

/-- A database with one closure, at address 7. -/
def oneClosure : Closure := ⟨make .STR 3, tag_make _ _⟩

def oneClosureDb : AddrMap Bytes := Finmap.singleton 7 (writeUint64 oneClosure.val.raw)

def oneLive : Live := Finmap.singleton 7 oneClosure

private theorem oneClosureDb_holds : Holds oneClosureDb oneLive := by
  intro addr
  by_cases same : addr = 7
  · rw [same, oneClosureDb, oneLive, Finmap.lookup_singleton_eq, Finmap.lookup_singleton_eq]
    rfl
  · have absent : ∀ {β : Type} (b : β), (Finmap.singleton 7 b : AddrMap β).lookup addr = none :=
      fun b => Finmap.lookup_eq_none.2 fun among => same ((Finmap.mem_singleton _ _ _).1 among)
    rw [oneClosureDb, oneLive, absent, absent, Option.map_none]

/-- A closure set and cleared in one session, and a commit. -/
theorem setClearCommit_refines :
    RefinesMap (opened oneClosureDb) oneLive [.set 9 oneClosure, .clear 9, .commit, .get 7] := by
  apply (closures_refined_iff oneClosureDb oneLive oneClosureDb_holds _).2
  simp [Allowed, oneLive, Finmap.keys_singleton]

/-- Clearing a closure of the database. -/
theorem clearStored_not_refines :
    Holds oneClosureDb oneLive ∧ ¬ RefinesMap (opened oneClosureDb) oneLive [.clear 7] := by
  refine ⟨oneClosureDb_holds, ?_⟩
  rintro ⟨-, s', reached, -, agrees⟩
  obtain rfl : clearFrozenClosure (opened oneClosureDb) 7 = s' := Except.ok.inj reached
  refine not_agrees_clear (Tracks.opened_holds oneClosureDb_holds) ?_ agrees
  rw [oneLive, Finmap.keys_singleton]
  exact Finset.mem_singleton_self 7

end Runs

end Epilog.Global.Closures
